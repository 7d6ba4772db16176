import Aevros.Library.Runs
import Aevros.Office.Porch

/-! # Frames left with Foyer

Every frame that Foyer takes should be held, flushed or dropped, and counted so. A frame that
Bailiff refuses is none of them.
-/

namespace Aevros

open List Function Bool Runs

def Sendable (frame : Frame) : Prop := ¬(frame.length = 0 ∨ bailiffMaxFrame < frame.length)

instance (frame : Frame) : Decidable (Sendable frame) := inferInstanceAs (Decidable ¬_)

namespace FoyerEntry

variable (w : Surroundings) (e : FoyerEntry)

def exhausted : Bool :=
  (w.lookup e.targetIp).isNone && !(w.ticks - e.lastAttempt < foyerRetryIntervalTick) &&
    foyerMaxRetries ≤ e.retryCount

def ticked : FoyerEntry :=
  if !e.inUse then e
  else match w.lookup e.targetIp with
    | some mac => { e with frame := readdress mac e.frame, inUse := false }
    | none =>
      if w.ticks - e.lastAttempt < foyerRetryIntervalTick then e
      else if foyerMaxRetries ≤ e.retryCount then { e with inUse := false }
      else { e with retryCount := e.retryCount + 1, lastAttempt := w.ticks }

theorem ticked_inUse : (e.ticked w).inUse =
    (e.inUse && (w.lookup e.targetIp).isNone && !e.exhausted w) := by
  unfold ticked exhausted
  by_cases hu : e.inUse = true
  · cases hl : w.lookup e.targetIp with
    | some mac => simp [hu]
    | none =>
      by_cases ht : w.ticks - e.lastAttempt < foyerRetryIntervalTick
      · simp [ht]
      · by_cases hr : foyerMaxRetries ≤ e.retryCount <;> simp [hu, ht, hr]
  · simp [hu]

theorem ticked_of_held (h : (e.ticked w).inUse = true) :
    e.inUse = true ∧ (e.ticked w).targetIp = e.targetIp ∧ (e.ticked w).frame = e.frame := by
  rw [ticked_inUse, and_eq_true, and_eq_true, Option.isNone_iff_eq_none] at h
  refine ⟨h.1.1, ?_⟩
  unfold ticked
  rw [h.1.2]
  split_ifs <;> exact ⟨rfl, rfl⟩

end FoyerEntry

namespace Porch

variable {w : Surroundings} {answers : Fin foyerCapacity → Bool}

variable (w : Surroundings)

def handsOver (p : Porch) (i : Fin foyerCapacity) : Bool :=
  (p.slots i).inUse && (w.lookup (p.slots i).targetIp).isSome

def givesUp (p : Porch) (i : Fin foyerCapacity) : Bool :=
  (p.slots i).inUse && (p.slots i).exhausted w

section

variable (answers : Fin foyerCapacity → Bool)

theorem tickEntry_eq (p : Porch) (i : Fin foyerCapacity) : p.tickEntry w answers i =
      ⟨update p.slots i ((p.slots i).ticked w),
        if p.handsOver w i && answers i then p.flushedTotal + 1 else p.flushedTotal,
        if p.givesUp w i then p.droppedTotal + 1 else p.droppedTotal⟩ := by
  unfold tickEntry handsOver givesUp FoyerEntry.ticked FoyerEntry.exhausted
  dsimp only
  by_cases hu : (p.slots i).inUse = true
  · cases hl : w.lookup (p.slots i).targetIp with
    | some mac => simp [hu]
    | none =>
      by_cases ht : w.ticks - (p.slots i).lastAttempt < foyerRetryIntervalTick
      · simp [ht]
      · by_cases hr : foyerMaxRetries ≤ (p.slots i).retryCount <;> simp [hu, ht, hr]
  · simp [hu]

theorem add_count (t : Word) (b : Bool) (n : ℕ) : (if b then t + 1 else t) + BitVec.ofNat 32 n =
      t + BitVec.ofNat 32 (n + if b then 1 else 0) := by
  cases b
  · simp
  · simp only [if_true]
    rw [BitVec.ofNat_add, BitVec.add_assoc, BitVec.add_comm (BitVec.ofNat 32 n)]
    rfl

theorem foldl_tickEntry (p : Porch)
    {is : List (Fin foyerCapacity)} (hnd : is.Nodup) : is.foldl (tickEntry w answers) p =
      ⟨fun i => if i ∈ is then (p.slots i).ticked w else p.slots i,
        p.flushedTotal + BitVec.ofNat 32 (is.countP fun i => p.handsOver w i && answers i),
        p.droppedTotal + BitVec.ofNat 32 (is.countP fun i => p.givesUp w i)⟩ := by
  induction is generalizing p with
  | nil => simp
  | cons i is ih =>
    obtain ⟨hi, hnd⟩ := nodup_cons.mp hnd
    have hother : ∀ j ∈ is, (p.tickEntry w answers i).slots j = p.slots j := by
      intro j hj
      rw [tickEntry_eq]
      refine update_of_ne ?_ _ _
      rintro rfl
      exact hi hj
    have hover : ∀ j ∈ is, (p.tickEntry w answers i).handsOver w j = p.handsOver w j := by
      intro j hj
      rw [handsOver, handsOver, hother j hj]
    have hup : ∀ j ∈ is, (p.tickEntry w answers i).givesUp w j = p.givesUp w j := by
      intro j hj
      rw [givesUp, givesUp, hother j hj]
    rw [foldl_cons, ih _ hnd, Porch.mk.injEq]
    refine ⟨?_, ?_, ?_⟩
    · ext1 j
      rw [tickEntry_eq]
      by_cases hj : j = i
      · subst hj
        simp [hi]
      · simp [hj]
    · rw [countP_congr fun j hj => by rw [hover j hj], countP_cons, tickEntry_eq]
      exact add_count _ _ _
    · rw [countP_congr fun j hj => by rw [hup j hj], countP_cons, tickEntry_eq]
      exact add_count _ _ _

theorem tick_eq (p : Porch) : p.tick w answers = ⟨fun i => (p.slots i).ticked w,
        p.flushedTotal + BitVec.ofNat 32
          ((finRange foyerCapacity).countP fun i => p.handsOver w i && answers i),
        p.droppedTotal + BitVec.ofNat 32
          ((finRange foyerCapacity).countP fun i => p.givesUp w i)⟩ := by
  rw [tick, foldl_tickEntry w answers p (nodup_finRange _)]
  simp

end

theorem queue_cases (answer : Bool) (p : Porch) (target : Ip4) (frame : Frame) :
    (¬Sendable frame ∧ p.queue w answer target frame = (false, p)) ∨
    (Sendable frame ∧ p.queue w answer target frame =
      (false, { p with droppedTotal := p.droppedTotal + 1 })) ∨
    ∃ p' i e, p.queue w answer target frame = (true, p') ∧ (p.slots i).inUse = false ∧
      p'.slots = update p.slots i e ∧ p'.droppedTotal = p.droppedTotal ∧
      ((∃ mac, w.lookup target = some mac ∧ e.inUse = false ∧
        p'.flushedTotal = if answer then p.flushedTotal + 1 else p.flushedTotal) ∨
      (w.lookup target = none ∧ e.inUse = true ∧ (e.targetIp = target ∧ e.frame = frame) ∧
        p'.flushedTotal = p.flushedTotal)) := by
  unfold queue Sendable
  by_cases hlen : frame.length = 0 ∨ bailiffMaxFrame < frame.length
  · refine .inl ⟨fun h => h hlen, ?_⟩
    rw [if_pos hlen]
  · rw [if_neg hlen]
    cases hfree : foyerFreeSlot p.slots with
    | none => exact .inr (.inl ⟨hlen, rfl⟩)
    | some i =>
      have hi : (p.slots i).inUse = false := by
        simpa using Fin.eq_true_of_find?_eq_some hfree
      cases hmac : w.lookup target with
      | some mac => exact .inr (.inr ⟨_, i, _, rfl, hi, rfl, rfl, .inl ⟨mac, rfl, rfl, rfl⟩⟩)
      | none =>
        exact .inr (.inr ⟨_, i, _, rfl, hi, rfl, rfl, .inr ⟨rfl, rfl, ⟨rfl, rfl⟩, rfl⟩⟩)

theorem queue_accepts_iff (answer : Bool) (p : Porch) (target : Ip4) (frame : Frame) :
    (p.queue w answer target frame).1 = true ↔ Sendable frame ∧ ∃ i, (p.slots i).inUse = false := by
  have hfree : (foyerFreeSlot p.slots).isSome = true ↔ ∃ i, (p.slots i).inUse = false := by
    simp [foyerFreeSlot]
  rw [← hfree, queue, Sendable]
  by_cases hlen : frame.length = 0 ∨ bailiffMaxFrame < frame.length
  · rw [if_pos hlen]
    exact iff_of_false Bool.false_ne_true fun h => h.1 hlen
  · rw [if_neg hlen, and_iff_right hlen]
    cases foyerFreeSlot p.slots with
    | none => simp
    | some i => cases w.lookup target <;> simp

end Porch

structure Sending where
  number : ℕ
  lookup : Ip4 → Option Mac
  frame : Frame

/-- Foyer with a record of the frames that it accepted, numbered as they came. -/
structure Waiting where
  porch : Porch := {}
  accepted : List (Ip4 × Frame) := []
  owner : Fin foyerCapacity → ℕ := fun _ => 0
  sent : List Sending := []
  givenUp : List ℕ := []
  lost : List ℕ := []
  refused : ℕ := 0

inductive FoyerCall where
  | queue (w : Surroundings) (answer : Bool) (target : Ip4) (frame : Frame)
  | tick (w : Surroundings) (answers : Fin foyerCapacity → Bool)

def Porch.step (p : Porch) : FoyerCall → Porch
  | .queue w answer target frame => (p.queue w answer target frame).2
  | .tick w answers => p.tick w answers

namespace Waiting

def slotsWith (q : Fin foyerCapacity → Bool) : List (Fin foyerCapacity) :=
  (finRange foyerCapacity).filter q

section

variable (s : Waiting)

def held : List ℕ := (slotsWith fun i => (s.porch.slots i).inUse).map s.owner

def accept (p : Porch) (target : Ip4) (frame : Frame) : Waiting :=
  { s with
    porch := p
    accepted := s.accepted ++ [(target, frame)]
    owner := fun i => if (s.porch.slots i).inUse then s.owner i else s.accepted.length }

def step : FoyerCall → Waiting
  | .queue w answer target frame =>
    let r := s.porch.queue w answer target frame
    if r.1 then
      let s' := s.accept r.2 target frame
      match w.lookup target with
      | some mac =>
        if answer then
          { s' with sent := s.sent ++ [⟨s.accepted.length, w.lookup, readdress mac frame⟩] }
        else { s' with lost := s.lost ++ [s.accepted.length] }
      | none => s'
    else { s with porch := r.2, refused := if Sendable frame then s.refused + 1 else s.refused }
  | .tick w answers =>
    { s with
      porch := s.porch.tick w answers
      sent := s.sent ++ (slotsWith fun i => s.porch.handsOver w i && answers i).map fun i =>
        ⟨s.owner i, w.lookup, ((s.porch.slots i).ticked w).frame⟩
      givenUp := s.givenUp ++ (slotsWith (s.porch.givesUp w)).map s.owner
      lost := s.lost ++ (slotsWith fun i => s.porch.handsOver w i && !answers i).map s.owner }

theorem porch_run (cs : List FoyerCall) : (run step s cs).porch = run Porch.step s.porch cs := by
  induction cs generalizing s with
  | nil => rfl
  | cons c cs ih =>
    have hstep : (s.step c).porch = s.porch.step c := by
      cases c with
      | queue w answer target frame =>
        simp only [step]
        cases (s.porch.queue w answer target frame).1 with
        | false => rfl
        | true => cases w.lookup target <;> cases answer <;> rfl
      | tick w answers => rfl
    rw [run_cons, run_cons, ih, hstep]

end

/-- The record is right about the frames it lists, and so are the totals. -/
structure Recorded (s : Waiting) : Prop where
  held_kept : ∀ i, (s.porch.slots i).inUse = true →
    s.accepted[s.owner i]? = some ((s.porch.slots i).targetIp, (s.porch.slots i).frame)
  /-- What was sent went to the address known for its target. -/
  sent_right : ∀ x ∈ s.sent, ∃ target frame mac, s.accepted[x.number]? = some (target, frame) ∧
    x.lookup target = some mac ∧ x.frame = readdress mac frame
  flushed : s.porch.flushedTotal = BitVec.ofNat 32 s.sent.length
  dropped : s.porch.droppedTotal = BitVec.ofNat 32 (s.givenUp.length + s.refused)

/-- Each accepted frame is held, was sent or was given up, and only one of these, once. -/
structure Conserved (s : Waiting) : Prop extends Recorded s where
  once : (s.held ++ s.sent.map Sending.number ++ s.givenUp).Perm (range s.accepted.length)
  balance : s.accepted.length = s.held.length + s.sent.length + s.givenUp.length

/-- What Foyer does: a frame may also be lost. -/
structure Accounted (s : Waiting) : Prop extends Recorded s where
  once : (s.held ++ s.sent.map Sending.number ++ s.givenUp ++ s.lost).Perm (range s.accepted.length)

/-- Bailiff takes every frame that it is handed during the call. -/
def Taken (s : Waiting) : FoyerCall → Prop
  | .queue w answer target frame =>
    Sendable frame ∧ (∃ i, (s.porch.slots i).inUse = false) → (w.lookup target).isSome = true →
      answer = true
  | .tick w answers => ∀ i, s.porch.handsOver w i = true → answers i = true

theorem Accounted.conserved_iff {s : Waiting} (h : s.Accounted) : s.Conserved ↔ s.lost = [] := by
  have hlen := h.once.length_eq
  simp only [length_append, length_map, length_range] at hlen
  constructor
  · intro hc
    have := hc.balance
    exact eq_nil_of_length_eq_zero (by omega)
  · intro hl
    refine ⟨h.toRecorded, ?_, ?_⟩
    · have := h.once
      rwa [hl, append_nil] at this
    · rw [hl, length_nil] at hlen
      omega

theorem slotsWith_split (p q : Fin foyerCapacity → Bool) : (slotsWith p).Perm
      ((slotsWith fun i => p i && q i) ++ slotsWith fun i => p i && !q i) := by
  have hperm := (filter_append_perm q (slotsWith p)).symm
  simp only [slotsWith, filter_filter] at hperm ⊢
  simpa only [Bool.and_comm] using hperm

theorem inUse_parts (p : Porch) (w : Surroundings) (answers : Fin foyerCapacity → Bool) :
    (slotsWith fun i => (p.slots i).inUse).Perm
      ((slotsWith fun i => ((p.slots i).ticked w).inUse) ++
        (slotsWith fun i => p.handsOver w i && answers i) ++ slotsWith (p.givesUp w) ++
        slotsWith fun i => p.handsOver w i && !answers i) := by
  have hover := slotsWith_split (fun i => (p.slots i).inUse)
    (fun i => (w.lookup (p.slots i).targetIp).isSome)
  have hanswer := slotsWith_split (p.handsOver w) answers
  have hup := slotsWith_split
    (fun i => (p.slots i).inUse && !(w.lookup (p.slots i).targetIp).isSome)
    (fun i => (p.slots i).exhausted w)
  have hgive : (slotsWith fun i => (p.slots i).inUse &&
      !(w.lookup (p.slots i).targetIp).isSome && (p.slots i).exhausted w) =
      slotsWith (p.givesUp w) := by
    refine congrArg slotsWith (funext fun i => ?_)
    simp only [Porch.givesUp, FoyerEntry.exhausted]
    cases w.lookup (p.slots i).targetIp <;> simp
  have hstay : (slotsWith fun i => (p.slots i).inUse &&
      !(w.lookup (p.slots i).targetIp).isSome && !(p.slots i).exhausted w) =
      slotsWith fun i => ((p.slots i).ticked w).inUse := by
    refine congrArg slotsWith (funext fun i => ?_)
    rw [FoyerEntry.ticked_inUse]
    cases w.lookup (p.slots i).targetIp <;> simp
  rw [hgive, hstay] at hup
  refine hover.trans ((hanswer.append hup).trans (perm_iff_count.mpr fun i => ?_))
  simp only [count_append]
  omega

variable {s : Waiting} {i : Fin foyerCapacity} {e : FoyerEntry}

theorem Accounted.tick (h : s.Accounted) (w : Surroundings)
    (answers : Fin foyerCapacity → Bool) : (s.step (.tick w answers)).Accounted := by
  constructor
  · constructor
    · intro i hi
      simp only [step, Porch.tick_eq] at hi ⊢
      obtain ⟨hu, ht, hf⟩ := (s.porch.slots i).ticked_of_held w hi
      rw [ht, hf]
      exact h.held_kept i hu
    · simp only [step, mem_append, mem_map]
      rintro x (hx | ⟨i, hi, rfl⟩)
      · exact h.sent_right x hx
      · simp only [slotsWith, Porch.handsOver, mem_filter, and_eq_true] at hi
        obtain ⟨-, ⟨hu, hknown⟩, -⟩ := hi
        obtain ⟨mac, hmac⟩ := Option.isSome_iff_exists.mp hknown
        exact ⟨_, _, mac, h.held_kept i hu, hmac, by simp [FoyerEntry.ticked, hu, hmac]⟩
    · simp only [step, Porch.tick_eq, h.flushed, length_append, length_map]
      rw [BitVec.ofNat_add, slotsWith, countP_eq_length_filter]
    · simp only [step, Porch.tick_eq, h.dropped, length_append, length_map]
      rw [slotsWith, ← countP_eq_length_filter, Nat.add_right_comm]
      exact (BitVec.ofNat_add _ _).symm
  · have hparts := (inUse_parts s.porch w answers).map s.owner
    refine Perm.trans ?_ h.once
    refine perm_iff_count.mpr fun n => ?_
    have hn := perm_iff_count.mp hparts n
    simp only [held, step, Porch.tick_eq, count_append, map_append, map_map] at hn ⊢
    change _ + (_ + count n ((slotsWith _).map s.owner)) + _ + _ = _
    omega

theorem getElem?_accepted (l : List (Ip4 × Frame)) {n : ℕ} {x : Ip4 × Frame}
    (h : s.accepted[n]? = some x) : (s.accepted ++ l)[n]? = some x := by
  obtain ⟨hn, -⟩ := List.getElem?_eq_some_iff.mp h
  rwa [getElem?_append_left hn]

theorem slotsWith_fill {t : Foyer} (hi : (t i).inUse = false) (he : e.inUse = true) :
    (slotsWith fun j => (update t i e j).inUse).Perm (i :: slotsWith fun j => (t j).inUse) := by
  have hnd : (i :: slotsWith fun j => (t j).inUse).Nodup := by
    refine nodup_cons.mpr ⟨?_, (nodup_finRange _).filter _⟩
    simp [slotsWith, hi]
  refine (perm_ext_iff_of_nodup ((nodup_finRange _).filter _) hnd).mpr fun j => ?_
  by_cases hj : j = i
  · simp [hj, he]
  · simp [slotsWith, hj]

theorem slotsWith_pass {t : Foyer} (hi : (t i).inUse = false) (he : e.inUse = false) :
    (slotsWith fun j => (update t i e j).inUse) = slotsWith fun j => (t j).inUse := by
  refine congrArg slotsWith (funext fun j => ?_)
  by_cases hj : j = i
  · simp [hj, hi, he]
  · simp [hj]

theorem map_owner (n : ℕ) : ((slotsWith fun i => (s.porch.slots i).inUse).map fun i =>
      if (s.porch.slots i).inUse then s.owner i else n) = s.held := by
  refine map_congr_left fun i hi => if_pos ?_
  simpa [slotsWith] using hi

section Accept

variable {p : Porch} (hi : (s.porch.slots i).inUse = false)
  (hp : p.slots = update s.porch.slots i e) (target : Ip4) (frame : Frame)
include hi hp

theorem accept_held_kept (h : s.Recorded)
    (he : e.inUse = true → e.targetIp = target ∧ e.frame = frame) (j : Fin foyerCapacity)
    (hj : ((s.accept p target frame).porch.slots j).inUse = true) :
    (s.accept p target frame).accepted[(s.accept p target frame).owner j]? =
      some (((s.accept p target frame).porch.slots j).targetIp,
        ((s.accept p target frame).porch.slots j).frame) := by
  simp only [accept, hp] at hj ⊢
  by_cases hji : j = i
  · subst hji
    rw [update_self] at hj ⊢
    obtain ⟨ht, hf⟩ := he hj
    simp [hi, ht, hf]
  · rw [update_of_ne hji] at hj ⊢
    rw [if_pos hj]
    exact getElem?_accepted _ (h.held_kept j hj)

theorem accept_held_of_pass (he : e.inUse = false) : (s.accept p target frame).held = s.held := by
  rw [held, accept, hp, slotsWith_pass hi he]
  exact map_owner _

theorem accept_held_of_keep (he : e.inUse = true) :
    (s.accept p target frame).held.Perm (s.accepted.length :: s.held) := by
  rw [held, accept, hp]
  refine ((slotsWith_fill hi he).map _).trans ?_
  rw [map_cons, map_owner]
  dsimp only
  rw [if_neg (by simp [hi])]

end Accept

theorem accept_sent_right (h : s.Recorded) (p : Porch) (target : Ip4) (frame : Frame)
    {x : Sending} (hx : x ∈ s.sent) : ∃ t f mac,
      (s.accept p target frame).accepted[x.number]? = some (t, f) ∧
        x.lookup t = some mac ∧ x.frame = readdress mac f := by
  obtain ⟨t, f, mac, hn, hrest⟩ := h.sent_right x hx
  exact ⟨t, f, mac, getElem?_accepted _ hn, hrest⟩

section Queue

variable {w : Surroundings} {answer : Bool} {target : Ip4} {frame : Frame} {p : Porch}

theorem step_of_refused (hq : s.porch.queue w answer target frame = (false, p)) :
    s.step (.queue w answer target frame) =
      { s with porch := p, refused := if Sendable frame then s.refused + 1 else s.refused } := by
  simp [step, hq]

theorem step_of_sent (hq : s.porch.queue w true target frame = (true, p)) {mac : Mac}
    (hmac : w.lookup target = some mac) : s.step (.queue w true target frame) =
      { s.accept p target frame with
        sent := s.sent ++ [⟨s.accepted.length, w.lookup, readdress mac frame⟩] } := by
  simp [step, hq, hmac]

theorem step_of_lost (hq : s.porch.queue w false target frame = (true, p)) {mac : Mac}
    (hmac : w.lookup target = some mac) : s.step (.queue w false target frame) =
      { s.accept p target frame with lost := s.lost ++ [s.accepted.length] } := by
  simp [step, hq, hmac]

theorem step_of_kept (hq : s.porch.queue w answer target frame = (true, p))
    (hmac : w.lookup target = none) :
    s.step (.queue w answer target frame) = s.accept p target frame := by
  simp [step, hq, hmac]

end Queue

namespace Accounted

variable {p : Porch} {i : Fin foyerCapacity} {e : FoyerEntry} {target : Ip4} {frame : Frame}
  {mac : Mac} {lookup : Ip4 → Option Mac}

theorem once_next (h : s.Accounted) (target : Ip4) (frame : Frame) :
    (s.held ++ s.sent.map Sending.number ++ s.givenUp ++ s.lost ++ [s.accepted.length]).Perm
      (range (s.accepted ++ [(target, frame)]).length) := by
  rw [length_append, length_singleton, range_succ]
  exact h.once.append_right _

section Accept

variable (h : s.Accounted) (hi : (s.porch.slots i).inUse = false)
  (hp : p.slots = update s.porch.slots i e) (hd : p.droppedTotal = s.porch.droppedTotal)
include h hi hp hd

theorem keep (hu : e.inUse = true) (he : e.targetIp = target ∧ e.frame = frame)
    (hf : p.flushedTotal = s.porch.flushedTotal) : (s.accept p target frame).Accounted := by
  refine ⟨⟨accept_held_kept hi hp _ _ h.toRecorded fun _ => he, ?_, hf.trans h.flushed,
    hd.trans h.dropped⟩, ?_⟩
  · exact fun x hx => accept_sent_right h.toRecorded p _ _ hx
  · refine Perm.trans ?_ (h.once_next target frame)
    refine (((accept_held_of_keep hi hp target frame hu).append_right _).append_right
      _ |>.append_right _).trans ?_
    exact (perm_append_singleton _ _).symm

theorem lose (hu : e.inUse = false) (hf : p.flushedTotal = s.porch.flushedTotal) :
    Accounted { s.accept p target frame with lost := s.lost ++ [s.accepted.length] } := by
  have hkept := accept_held_kept hi hp target frame h.toRecorded fun hu' =>
    absurd (hu.symm.trans hu') false_ne_true
  refine ⟨⟨hkept, ?_, hf.trans h.flushed, hd.trans h.dropped⟩, ?_⟩
  · exact fun x hx => accept_sent_right h.toRecorded p _ _ hx
  · refine Perm.trans ?_ (h.once_next target frame)
    change ((s.accept p target frame).held ++ _ ++ _ ++ (s.lost ++ _)).Perm _
    rw [accept_held_of_pass hi hp target frame hu, ← append_assoc]
    rfl

theorem send (hu : e.inUse = false) (hmac : lookup target = some mac)
    (hf : p.flushedTotal = s.porch.flushedTotal + 1) : Accounted { s.accept p target frame with
      sent := s.sent ++ [⟨s.accepted.length, lookup, readdress mac frame⟩] } := by
  have hkept := accept_held_kept hi hp target frame h.toRecorded fun hu' =>
    absurd (hu.symm.trans hu') false_ne_true
  refine ⟨⟨hkept, ?_, ?_, hd.trans h.dropped⟩, ?_⟩
  · intro x hx
    obtain hx | hx := mem_append.mp hx
    · exact accept_sent_right h.toRecorded p _ _ hx
    · obtain rfl := mem_singleton.mp hx
      exact ⟨target, frame, mac, getElem?_concat_length, hmac, rfl⟩
  · rw [length_append]
    exact hf.trans ((congrArg (· + 1) h.flushed).trans (BitVec.ofNat_add _ 1).symm)
  · refine Perm.trans ?_ (h.once_next target frame)
    change ((s.accept p target frame).held ++ _ ++ s.givenUp ++ s.lost).Perm _
    rw [accept_held_of_pass hi hp target frame hu, map_append]
    refine perm_iff_count.mpr fun n => ?_
    simp only [count_append, map_singleton]
    omega

end Accept

theorem refuse (h : s.Accounted) : Accounted { s with
    porch := { s.porch with droppedTotal := s.porch.droppedTotal + 1 }
    refused := s.refused + 1 } := by
  refine ⟨⟨h.held_kept, h.sent_right, h.flushed, ?_⟩, h.once⟩
  simp only [h.dropped]
  exact (BitVec.ofNat_add _ 1).symm

theorem queue (h : s.Accounted) (w : Surroundings) (answer : Bool) (target : Ip4)
    (frame : Frame) : (s.step (.queue w answer target frame)).Accounted := by
  obtain ⟨hs, hq⟩ | ⟨hs, hq⟩ | ⟨p, i, e, hq, hi, hp, hd, ⟨mac, hmac, hu, hf⟩ |
    ⟨hmac, hu, he, hf⟩⟩ := s.porch.queue_cases w answer target frame
  · rw [step_of_refused hq, if_neg hs]
    exact h
  · rw [step_of_refused hq, if_pos hs]
    exact h.refuse
  · cases answer with
    | true =>
      rw [step_of_sent hq hmac]
      exact h.send hi hp hd hu hmac hf
    | false =>
      rw [step_of_lost hq hmac]
      exact h.lose hi hp hd hu hf
  · rw [step_of_kept hq hmac]
    exact h.keep hi hp hd hu he hf

end Accounted

theorem Accounted.step (h : s.Accounted) (c : FoyerCall) : (s.step c).Accounted := by
  cases c with
  | queue w answer target frame => exact h.queue w answer target frame
  | tick w answers => exact h.tick w answers

theorem lost_step_iff (hl : s.lost = []) (c : FoyerCall) : (s.step c).lost = [] ↔ s.Taken c := by
  cases c with
  | queue w answer target frame =>
    rw [Taken, ← s.porch.queue_accepts_iff w answer target frame]
    obtain ⟨-, hq⟩ | ⟨-, hq⟩ | ⟨p, i, e, hq, -, -, -, ⟨mac, hmac, -⟩ | ⟨hmac, -⟩⟩ :=
      s.porch.queue_cases w answer target frame
    · simp [step_of_refused hq, hq, hl]
    · simp [step_of_refused hq, hq, hl]
    · cases answer with
      | true => simp [step_of_sent hq hmac, accept, hl]
      | false => simp [step_of_lost hq hmac, hq, hmac]
    · simp [step_of_kept hq hmac, hmac, accept, hl]
  | tick w answers =>
    simp [step, Taken, hl, slotsWith]

theorem accounted_start : ({} : Waiting).Accounted := by
  refine ⟨⟨?_, ?_, rfl, rfl⟩, ?_⟩
  · intro i hi
    cases hi
  · intro x hx
    cases hx
  · exact .refl _

/-- Accepted frames are conserved exactly if Bailiff takes every frame that it is handed. -/
theorem conserved_iff_taken (cs : List FoyerCall) :
    Along step (fun s c => (s.step c).Conserved) {} cs ↔ Along step Taken {} cs := by
  have hstart : ({} : Waiting).Conserved := accounted_start.conserved_iff.mpr rfl
  refine along_iff_of_survives (I := Accounted) (fun s c h => h.step c) ?_ accounted_start hstart cs
  intro s c h hc
  rw [(h.step c).conserved_iff]
  exact lost_step_iff (h.conserved_iff.mp hc) c

theorem refused_frame_vanishes :
    let frame := replicate 60 (0 : Byte)
    let w : Surroundings := ⟨0, fun _ => some ⟨2, 0, 0, 0, 0, 1⟩⟩
    let s := ({} : Waiting).step (.queue w false ⟨10, 0, 2, 2⟩ frame)
    (({} : Porch).queue w false ⟨10, 0, 2, 2⟩ frame).1 = true ∧ s.held = [] ∧
      s.porch.flushedTotal = 0 ∧ s.porch.droppedTotal = 0 ∧ ¬s.Conserved := by
  refine ⟨by decide, by decide, by decide, by decide, ?_⟩
  intro h
  have := h.balance
  revert this
  decide

end Waiting

inductive OfficeCall
  | queue (target : Ip4) (ourMac : Mac) (frame : Frame)
  | tick (ourMac : Mac)
  | other (o : Office)

theorem Waiting.accepted_queue (s : Waiting) (w : Surroundings) (target : Ip4) (frame : Frame) :
    (s.step (.queue w true target frame)).accepted = s.accepted ++
      if (s.porch.queue w true target frame).1 then [(target, frame)] else [] := by
  obtain ⟨-, hq⟩ | ⟨-, hq⟩ | ⟨p, i, e, hq, -, -, -, ⟨mac, hmac, -⟩ | ⟨hmac, -⟩⟩ :=
    s.porch.queue_cases w true target frame
  · simp [step_of_refused hq, hq]
  · simp [step_of_refused hq, hq]
  · simp [step_of_sent hq hmac, accept, hq]
  · simp [step_of_kept hq hmac, accept, hq]

theorem Waiting.Accounted.owner_inj {s : Waiting} (h : s.Accounted) {i j : Fin foyerCapacity}
    (hi : (s.porch.slots i).inUse = true) (hj : (s.porch.slots j).inUse = true)
    (he : s.owner i = s.owner j) : i = j := by
  have hnd := h.once.nodup_iff.mpr nodup_range
  simp only [append_assoc] at hnd
  refine inj_on_of_nodup_map (nodup_append.mp hnd).1 ?_ ?_ he
  · simpa [slotsWith] using hi
  · simpa [slotsWith] using hj

namespace Office

variable (o : Office)

/-- What happens elsewhere may change all but Foyer. -/
def call : OfficeCall → Office
  | .queue target ourMac frame => (foyerQueue o target ourMac frame).2
  | .tick ourMac => foyerTick o ourMac
  | .other o' => { o' with foyer := o.foyer }

def takes : OfficeCall → List (Ip4 × Frame)
  | .queue target ourMac frame =>
    if (foyerQueue o target ourMac frame).1 then [(target, frame)] else []
  | .tick _ | .other _ => []

/-- The frames that `foyer_queue` took, with their targets. -/
def taken : Office → List OfficeCall → List (Ip4 × Frame)
  | _, [] => []
  | o, c :: cs => o.takes c ++ taken (o.call c) cs

theorem call_waiting {s : Waiting} (h : s.Accounted) (hs : s.porch.slots = o.foyer)
    (c : OfficeCall) : ∃ s' : Waiting, s'.Accounted ∧ s'.porch.slots = (o.call c).foyer ∧
      s'.accepted = s.accepted ++ o.takes c := by
  cases c with
  | queue target ourMac frame =>
    obtain ⟨hanswer, hslots⟩ := foyerQueue_porch o target ourMac frame hs true
    have hporch := s.porch_run [.queue o.surroundings true target frame]
    refine ⟨s.step (.queue o.surroundings true target frame), h.queue .., ?_, ?_⟩
    · exact (congrArg Porch.slots hporch).trans hslots.symm
    · rw [takes, hanswer]
      exact s.accepted_queue ..
  | tick ourMac =>
    refine ⟨s.step (.tick o.surroundings fun _ => true), h.tick .., ?_, ?_⟩
    · exact (foyerTick_porch o ourMac hs _).symm
    · exact (append_nil _).symm
  | other o' => exact ⟨s, h, hs, (append_nil _).symm⟩

theorem run_waiting {s : Waiting} (h : s.Accounted) (hs : s.porch.slots = o.foyer)
    (cs : List OfficeCall) : ∃ s' : Waiting, s'.Accounted ∧
      s'.porch.slots = (run call o cs).foyer ∧ s'.accepted = s.accepted ++ o.taken cs := by
  induction cs generalizing o s with
  | nil => exact ⟨s, h, hs, (append_nil _).symm⟩
  | cons c cs ih =>
    obtain ⟨s₁, h₁, hs₁, ha₁⟩ := o.call_waiting h hs c
    obtain ⟨s₂, h₂, hs₂, ha₂⟩ := ih (o.call c) h₁ hs₁
    refine ⟨s₂, h₂, hs₂, ?_⟩
    rw [ha₂, ha₁, append_assoc]
    rfl

end Office

/-- Each slot of Foyer holds a frame that it took, as it was and for its target, and no two slots
hold the same one. -/
theorem foyer_holds_what_it_took (o : Office) (cs : List OfficeCall) :
    let o := { o with foyer := fun _ => {} }
    let t := (run Office.call o cs).foyer
    ∃ number : Fin foyerCapacity → ℕ, (∀ i, (t i).inUse = true →
        (o.taken cs)[number i]? = some ((t i).targetIp, (t i).frame)) ∧
      ∀ i j, (t i).inUse = true → (t j).inUse = true → number i = number j → i = j := by
  intro o t
  obtain ⟨s, h, hs, ha⟩ := o.run_waiting Waiting.accounted_start rfl cs
  change s.porch.slots = t at hs
  refine ⟨s.owner, fun i hi => ?_, fun i j hi hj => ?_⟩
  · rw [← hs] at hi ⊢
    rw [← h.held_kept i hi, ha]
    rfl
  · rw [← hs] at hi hj
    exact h.owner_inj hi hj

end Aevros
