import Aevros.Office.Passes

/-! # Foyer with its totals

Foyer with the totals of flushed and dropped frames, in surroundings that may do what they like. The
Foyer of the office is one of these.
-/

namespace Aevros

open Function

structure Porch where
  slots : Foyer := fun _ => {}
  flushedTotal : Word := 0
  droppedTotal : Word := 0

structure Surroundings where
  ticks : Word
  lookup : Ip4 → Option Mac

namespace Porch

variable (w : Surroundings)

/-- `foyer_queue`, with the answer of Bailiff if the frame is handed over. -/
def queue (answer : Bool) (p : Porch) (target : Ip4) (frame : Frame) : Bool × Porch :=
  if frame.length = 0 ∨ bailiffMaxFrame < frame.length then (false, p)
  else match foyerFreeSlot p.slots with
    | none => (false, { p with droppedTotal := p.droppedTotal + 1 })
    | some i => match w.lookup target with
      | some mac =>
        (true, { p with
          slots := update p.slots i ⟨target, readdress mac frame, false, w.ticks, 0⟩
          flushedTotal := if answer then p.flushedTotal + 1 else p.flushedTotal })
      | none =>
        (true, { p with slots := update p.slots i ⟨target, frame, true, w.ticks, 0⟩ })

def tickEntry (answers : Fin foyerCapacity → Bool) (p : Porch) (i : Fin foyerCapacity) : Porch :=
  let e := p.slots i
  if !e.inUse then p
  else match w.lookup e.targetIp with
    | some mac =>
      { p with
        slots := update p.slots i { e with frame := readdress mac e.frame, inUse := false }
        flushedTotal := if answers i then p.flushedTotal + 1 else p.flushedTotal }
    | none =>
      if w.ticks - e.lastAttempt < foyerRetryIntervalTick then p
      else if foyerMaxRetries ≤ e.retryCount then
        { p with
          slots := update p.slots i { e with inUse := false }
          droppedTotal := p.droppedTotal + 1 }
      else
        let e' := { e with retryCount := e.retryCount + 1, lastAttempt := w.ticks }
        { p with slots := update p.slots i e' }

/-- `foyer_tick`, with the answers of Bailiff for the frames that it is handed. -/
def tick (answers : Fin foyerCapacity → Bool) (p : Porch) : Porch :=
  (List.finRange foyerCapacity).foldl (tickEntry w answers) p

end Porch

variable {o : Office}

def Office.surroundings (o : Office) : Surroundings := ⟨o.ticks, rolodexLookup o.rolodex⟩

/-- The state of ARP and the clock are not touched. -/
def Office.SameSurroundings (o o' : Office) : Prop := o'.ticks = o.ticks ∧ o'.rolodex = o.rolodex

section

variable (o : Office)

theorem same_bailiffRequestPass (frame : Frame) :
    o.SameSurroundings (bailiffRequestPass o frame).2 := by
  unfold bailiffRequestPass
  split_ifs
  · exact ⟨rfl, rfl⟩
  · dsimp only
    split <;> exact ⟨rfl, rfl⟩

theorem same_bailiffPresentPass (passId : Word) (frame : Frame) :
    o.SameSurroundings (bailiffPresentPass o passId frame).2 := by
  unfold bailiffPresentPass
  dsimp only
  split
  · exact ⟨rfl, rfl⟩
  · split_ifs <;> exact ⟨rfl, rfl⟩

theorem same_bailiffTransmit (frame : Frame) : o.SameSurroundings (bailiffTransmit o frame).2 := by
  have hreq := same_bailiffRequestPass o frame
  unfold bailiffTransmit
  generalize bailiffRequestPass o frame = r at hreq
  obtain ⟨_ | passId, o'⟩ := r
  · exact hreq
  · obtain ⟨ht, hr⟩ := same_bailiffPresentPass o' passId frame
    exact ⟨ht.trans hreq.1, hr.trans hreq.2⟩

theorem same_sendArpRequest (mac : Mac) (target : Ip4) :
    o.SameSurroundings (sendArpRequest o mac target) := by
  have hreq : o.SameSurroundings (rolodexDispatchRequest o target mac).2 := by
    unfold rolodexDispatchRequest
    split_ifs
    · exact ⟨rfl, rfl⟩
    · exact same_bailiffRequestPass o _
  unfold sendArpRequest
  generalize rolodexDispatchRequest o target mac = r at hreq
  obtain ⟨_ | passId, o'⟩ := r
  · exact hreq
  · obtain ⟨ht, hr⟩ := same_bailiffPresentPass o' passId (arpRequestFrame o'.rolodex target mac)
    exact ⟨ht.trans hreq.1, hr.trans hreq.2⟩

theorem foyerQueue_porch (target : Ip4) (ourMac : Mac) (frame : Frame) {p : Porch}
    (hp : p.slots = o.foyer) (answer : Bool) :
    (foyerQueue o target ourMac frame).1 = (p.queue o.surroundings answer target frame).1 ∧
      (foyerQueue o target ourMac frame).2.foyer =
        (p.queue o.surroundings answer target frame).2.slots := by
  unfold foyerQueue Porch.queue Office.surroundings
  rw [hp]
  split
  · exact ⟨rfl, hp.symm⟩
  · dsimp only
    cases foyerFreeSlot o.foyer with
    | none => exact ⟨rfl, rfl⟩
    | some i =>
      cases rolodexLookup o.rolodex target with
      | some mac => exact ⟨rfl, (transmits_bailiffTransmit _ _).1⟩
      | none =>
        refine ⟨rfl, ?_⟩
        dsimp only
        split_ifs
        · rfl
        · obtain ⟨_, -, hfoyer, -⟩ := transmits_sendArpRequest
            { o with foyer := update o.foyer i ⟨target, frame, true, o.ticks, 0⟩ } ourMac
            target
          exact hfoyer

end

theorem foyerTickEntry_porch (ourMac : Mac) {p : Porch} (hp : p.slots = o.foyer)
    (answers : Fin foyerCapacity → Bool) (i : Fin foyerCapacity) :
    (foyerTickEntry ourMac o i).foyer = (p.tickEntry o.surroundings answers i).slots ∧
      o.SameSurroundings (foyerTickEntry ourMac o i) := by
  unfold foyerTickEntry Porch.tickEntry Office.surroundings
  rw [hp]
  dsimp only
  split
  · exact ⟨hp.symm, rfl, rfl⟩
  · cases rolodexLookup o.rolodex (o.foyer i).targetIp with
    | some mac => exact ⟨(transmits_bailiffTransmit _ _).1, same_bailiffTransmit _ _⟩
    | none =>
      dsimp only
      split_ifs with hwait hretries
      · exact ⟨hp.symm, rfl, rfl⟩
      · exact ⟨rfl, rfl, rfl⟩
      · obtain ⟨_, -, hfoyer, -⟩ := transmits_sendArpRequest
          { o with foyer := update o.foyer i { o.foyer i with
            retryCount := (o.foyer i).retryCount + 1, lastAttempt := o.ticks } } ourMac
          (o.foyer i).targetIp
        exact ⟨hfoyer, same_sendArpRequest _ _ _⟩

theorem foyerTick_porch (o : Office) (ourMac : Mac) {p : Porch} (hp : p.slots = o.foyer)
    (answers : Fin foyerCapacity → Bool) :
    (foyerTick o ourMac).foyer = (p.tick o.surroundings answers).slots := by
  unfold foyerTick Porch.tick
  generalize List.finRange foyerCapacity = is
  induction is generalizing o p with
  | nil => exact hp.symm
  | cons i is ih =>
    obtain ⟨hfoyer, ht, hr⟩ := foyerTickEntry_porch ourMac hp answers i
    have hw : (foyerTickEntry ourMac o i).surroundings = o.surroundings := by
      rw [Office.surroundings, ht, hr, Office.surroundings]
    have := ih (foyerTickEntry ourMac o i) hfoyer.symm
    rwa [hw] at this

end Aevros
