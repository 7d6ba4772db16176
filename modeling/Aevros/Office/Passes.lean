import Aevros.Office.Transmit

/-! # Passes, frames on the wire and frames left with Foyer

When a pass that was just issued is honoured, and what the functions of the
office do to Foyer and to the wire.
-/

namespace Aevros

open Function Fin

variable {o : Office} {frame : Frame}

def Bailiff.issue (b : Bailiff) (now : Word) (i : Fin bailiffMaxPasses) (frame : Frame) : Bailiff :=
  ⟨update (b.reclaimExpired now).passes i
    ⟨b.nextPassId, frame.length, Bailiff.checksum frame, now, true⟩, b.nextPassId + 1⟩

def Office.withPass (o : Office) (i : Fin bailiffMaxPasses) (frame : Frame) : Office :=
  { o with bailiff := o.bailiff.issue o.ticks i frame }

theorem bailiffRequestPass_of_free {i : Fin bailiffMaxPasses}
    (hi : (o.bailiff.reclaimExpired o.ticks).freePass = some i)
    (hl : 0 < frame.length ∧ frame.length ≤ bailiffMaxFrame) :
    bailiffRequestPass o frame = (some o.bailiff.nextPassId, o.withPass i frame) := by
  unfold bailiffRequestPass
  rw [if_neg (by omega)]
  dsimp only
  rw [hi]
  rfl

theorem reclaimExpired_issue (b : Bailiff) (now : Word) (i : Fin bailiffMaxPasses)
    (frame : Frame) : (b.issue now i frame).reclaimExpired now = b.issue now i frame := by
  have hp : ∀ j, (if ((b.issue now i frame).passes j).inUse &&
      bailiffPassTimeoutTicks < now - ((b.issue now i frame).passes j).issuedAt then
        { (b.issue now i frame).passes j with inUse := false }
      else (b.issue now i frame).passes j) = (b.issue now i frame).passes j := by
    intro j
    refine if_neg fun hc => ?_
    simp only [Bailiff.issue, Bailiff.reclaimExpired, update_apply] at hc
    split_ifs at hc with hj hr <;> simp_all [bailiffPassTimeoutTicks]
  unfold Bailiff.reclaimExpired
  rw [funext hp]

/-- The driver takes the frame, and no other pass is found under the number. -/
def Office.Presents (o : Office) (i : Fin bailiffMaxPasses) (frame : Frame) : Prop :=
  (frontdeskSend o.frontdesk frame).1 = true ∧
    ∀ j ∈ (o.bailiff.reclaimExpired o.ticks).findPass o.bailiff.nextPassId, j < i →
      ((o.bailiff.reclaimExpired o.ticks).passes j).declaredLen = frame.length ∧
        ((o.bailiff.reclaimExpired o.ticks).passes j).contentChecksum = Bailiff.checksum frame

theorem findPass_issue (b : Bailiff) (now : Word) (i : Fin bailiffMaxPasses) (frame : Frame) :
    ((b.issue now i frame).findPass b.nextPassId = some i ∧
        ∀ j ∈ (b.reclaimExpired now).findPass b.nextPassId, ¬ j < i) ∨
      ∃ j ∈ (b.reclaimExpired now).findPass b.nextPassId, j < i ∧
        (b.issue now i frame).findPass b.nextPassId = some j := by
  have hother : ∀ j ≠ i, (b.issue now i frame).passes j = (b.reclaimExpired now).passes j :=
    fun j hj => update_of_ne hj _ _
  have hself : ((b.issue now i frame).passes i).inUse = true ∧
      ((b.issue now i frame).passes i).passId = b.nextPassId := by simp [Bailiff.issue]
  by_cases h : ∃ j ∈ (b.reclaimExpired now).findPass b.nextPassId, j < i
  · obtain ⟨j, hj, hlt⟩ := h
    obtain ⟨hfound, hfirst⟩ := find?_eq_some_iff.mp hj
    refine .inr ⟨j, hj, hlt, find?_eq_some_iff.mpr ⟨?_, fun m hm => ?_⟩⟩
    · rw [hother j hlt.ne]
      exact hfound
    · rw [hother m (hm.trans hlt).ne]
      exact hfirst m hm
  · have hnone : ∀ j ∈ (b.reclaimExpired now).findPass b.nextPassId, ¬ j < i :=
      fun j hj hlt => h ⟨j, hj, hlt⟩
    refine .inl ⟨find?_eq_some_iff.mpr ⟨by simp [hself], fun m hm => ?_⟩, hnone⟩
    rw [hother m hm.ne]
    cases hj : (b.reclaimExpired now).findPass b.nextPassId with
    | none => exact eq_false_of_find?_eq_none hj m
    | some j =>
      have hmj : m < j := hm.trans_le (not_lt.mp (hnone j hj))
      exact (find?_eq_some_iff.mp hj).2 m hmj

theorem bailiffPresentPass_issue (o : Office) (i : Fin bailiffMaxPasses) (frame : Frame) :
    (bailiffPresentPass (o.withPass i frame) o.bailiff.nextPassId frame).1 = true ↔
      o.Presents i frame := by
  unfold bailiffPresentPass Office.Presents Office.withPass
  rw [reclaimExpired_issue]
  rcases findPass_issue o.bailiff o.ticks i frame with ⟨hf, hnone⟩ | ⟨j, hj, hlt, hf⟩
  · have hi : (o.bailiff.issue o.ticks i frame).passes i =
        ⟨o.bailiff.nextPassId, frame.length, Bailiff.checksum frame, o.ticks, true⟩ :=
      update_self _ _ _
    simp only [hf, hi, ne_eq]
    exact ⟨fun h => ⟨h, fun j hj hlt => absurd hlt (hnone j hj)⟩, fun h => h.1⟩
  · have hp : (o.bailiff.issue o.ticks i frame).passes j =
        (o.bailiff.reclaimExpired o.ticks).passes j := update_of_ne hlt.ne _ _
    have hall : (∀ m ∈ (o.bailiff.reclaimExpired o.ticks).findPass o.bailiff.nextPassId, m < i →
        ((o.bailiff.reclaimExpired o.ticks).passes m).declaredLen = frame.length ∧
        ((o.bailiff.reclaimExpired o.ticks).passes m).contentChecksum = Bailiff.checksum frame) ↔
        ((o.bailiff.reclaimExpired o.ticks).passes j).declaredLen = frame.length ∧
        ((o.bailiff.reclaimExpired o.ticks).passes j).contentChecksum = Bailiff.checksum frame := by
      constructor
      · exact fun h => h j hj hlt
      · intro h m hm _
        cases Option.mem_unique hm hj
        exact h
    rw [hall]
    simp only [hf, hp]
    split
    · rename_i hlen
      exact iff_of_false (by simp) fun h => hlen h.2.1
    · rename_i hlen
      split
      · rename_i hsum
        exact iff_of_false (by simp) fun h => hsum h.2.2
      · rename_i hsum
        exact ⟨fun h => ⟨h, not_not.mp hlen, not_not.mp hsum⟩, fun h => h.1⟩

/-- From `o` to `o'` at most the frame was transmitted, and Foyer was left alone. -/
def Office.Transmits (frame : Frame) (o o' : Office) : Prop :=
  o'.foyer = o.foyer ∧ (o'.wire = o.wire ∨ o'.wire = o.wire ++ [frame])

theorem bailiffRequestPass_kept (o : Office) (frame : Frame) :
    (bailiffRequestPass o frame).2.foyer = o.foyer ∧
      (bailiffRequestPass o frame).2.wire = o.wire := by
  unfold bailiffRequestPass
  split_ifs
  · exact ⟨rfl, rfl⟩
  · dsimp only
    split <;> exact ⟨rfl, rfl⟩

theorem transmits_bailiffPresentPass (o : Office) (passId : Word) (frame : Frame) :
    o.Transmits frame (bailiffPresentPass o passId frame).2 := by
  unfold bailiffPresentPass
  dsimp only
  split
  · exact ⟨rfl, .inl rfl⟩
  · split_ifs
    · exact ⟨rfl, .inl rfl⟩
    · exact ⟨rfl, .inl rfl⟩
    · exact ⟨rfl, .inr rfl⟩
    · exact ⟨rfl, .inl rfl⟩

theorem transmits_bailiffTransmit (o : Office) (frame : Frame) :
    o.Transmits frame (bailiffTransmit o frame).2 := by
  obtain ⟨hfoyer, hwire⟩ := bailiffRequestPass_kept o frame
  unfold bailiffTransmit
  generalize bailiffRequestPass o frame = r at hfoyer hwire ⊢
  obtain ⟨_ | passId, o'⟩ := r
  · exact ⟨hfoyer, .inl hwire⟩
  · obtain ⟨hf, hw⟩ := transmits_bailiffPresentPass o' passId frame
    rw [Office.Transmits, ← hfoyer, ← hwire]
    exact ⟨hf, hw⟩

def IsArpRequest (frame : Frame) : Prop :=
  ∃ (r : Rolodex) (target : Ip4) (mac : Mac), frame = arpRequestFrame r target mac

theorem transmits_sendArpRequest (o : Office) (mac : Mac) (target : Ip4) :
    ∃ frame, IsArpRequest frame ∧ o.Transmits frame (sendArpRequest o mac target) := by
  have hkept : (rolodexDispatchRequest o target mac).2.foyer = o.foyer ∧
      (rolodexDispatchRequest o target mac).2.wire = o.wire := by
    unfold rolodexDispatchRequest
    split_ifs
    · exact ⟨rfl, rfl⟩
    · exact bailiffRequestPass_kept o _
  unfold sendArpRequest
  generalize rolodexDispatchRequest o target mac = r at hkept ⊢
  obtain ⟨_ | passId, o'⟩ := r
  · exact ⟨_, ⟨o.rolodex, target, mac, rfl⟩, hkept.1, .inl hkept.2⟩
  · obtain ⟨hf, hw⟩ :=
      transmits_bailiffPresentPass o' passId (arpRequestFrame o'.rolodex target mac)
    refine ⟨_, ⟨o'.rolodex, target, mac, rfl⟩, ?_⟩
    rw [Office.Transmits, ← hkept.1, ← hkept.2]
    exact ⟨hf, hw⟩

theorem foyerQueue_of_full {target : Ip4} {mac : Mac} (h : foyerFreeSlot o.foyer = none) :
    foyerQueue o target mac frame = (false, o) := by
  unfold foyerQueue
  split_ifs
  · rfl
  · rw [h]

theorem foyerQueue_of_room {target : Ip4} {mac : Mac} {i : Fin foyerCapacity}
    (hl : 0 < frame.length ∧ frame.length ≤ bailiffMaxFrame)
    (hm : rolodexLookup o.rolodex target = none) (h : foyerFreeSlot o.foyer = some i) :
    (foyerQueue o target mac frame).2.foyer ≠ o.foyer := by
  have hfree : (o.foyer i).inUse = false := by
    simpa using eq_true_of_find?_eq_some h
  have hheld : (foyerQueue o target mac frame).2.foyer =
      update o.foyer i ⟨target, frame, true, o.ticks, 0⟩ := by
    unfold foyerQueue
    rw [if_neg (by omega)]
    dsimp only
    rw [h, hm]
    split_ifs
    · rfl
    · obtain ⟨_, -, hfoyer, -⟩ := transmits_sendArpRequest
        { o with foyer := update o.foyer i ⟨target, frame, true, o.ticks, 0⟩ } mac target
      exact hfoyer
  intro he
  rw [hheld] at he
  have hin := congrArg FoyerEntry.inUse (congrFun he i)
  rw [update_self, hfree] at hin
  exact Bool.noConfusion hin

end Aevros
