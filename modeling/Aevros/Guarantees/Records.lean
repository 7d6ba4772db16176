import Aevros.Library.Recent
import Aevros.Library.Runs
import Aevros.Provenance.Store

/-! # What the provenance ring remembers

The successful calls of `provenance_record` are numbered from 1 on. The ring holds the
last 256 of their records, reads them back in that order, and finds each of them by
its number.
-/

namespace Aevros

open BitVec List

def Provenance.note (p : Provenance) (h : Happening) : Provenance := (provenanceRecord p h).2

def recorded (calls : List Happening) : List ProvenanceRecord :=
  (calls.filter Happening.inputValid).mapIdx fun i h => h.record (BitVec.ofNat 32 (i + 1))

theorem length_recorded (calls : List Happening) :
    (recorded calls).length = calls.countP Happening.inputValid := by
  rw [recorded, length_mapIdx, countP_eq_length_filter]

theorem recorded_concat_of_valid {h : Happening} (hv : h.inputValid = true)
    (calls : List Happening) :
    recorded (calls ++ [h]) =
      recorded calls ++ [h.record (BitVec.ofNat 32 ((recorded calls).length + 1))] := by
  rw [recorded, filter_append, filter_singleton, hv, cond_true, mapIdx_concat,
    length_recorded, countP_eq_length_filter]
  rfl

theorem recorded_concat_of_not_valid {h : Happening} (hv : h.inputValid = false)
    (calls : List Happening) : recorded (calls ++ [h]) = recorded calls := by
  rw [recorded, filter_append, filter_singleton, hv]
  simp [recorded]

theorem id_recorded {calls : List Happening} {i : ℕ} (hi : i < (recorded calls).length) :
    (recorded calls)[i].id = BitVec.ofNat 32 (i + 1) := by
  simp only [recorded, getElem_mapIdx, Happening.record]

theorem valid_of_mem_recorded {calls : List Happening} {r : ProvenanceRecord}
    (hr : r ∈ recorded calls) : r.valid = true := by
  obtain ⟨i, hi, rfl⟩ := getElem_of_mem hr
  simp only [recorded, getElem_mapIdx, Happening.record]

namespace Provenance

variable {p : Provenance} {xs : List ProvenanceRecord}

/-- The ring after the records `xs`, of which it keeps the last. -/
structure Keeps (p : Provenance) (xs : List ProvenanceRecord) : Prop where
  cells : Recent.Holds p.records xs
  recordCount_eq : p.recordCount = min xs.length provenanceMaxRecords
  nextId_eq : p.nextId = BitVec.ofNat 32 (xs.length + 1)
  dropped_eq : p.dropped = BitVec.ofNat 32 (xs.length - provenanceMaxRecords)
  valid_lt : ∀ i, (p.records i).valid = true → i.val < xs.length

theorem keeps_init (p : Provenance) : (provenanceInit p).Keeps [] where
  cells := Recent.Holds.nil
  recordCount_eq := rfl
  nextId_eq := rfl
  dropped_eq := rfl
  valid_lt i hi := absurd hi (by simp [provenanceInit])

theorem Keeps.nextId_sub_one (h : p.Keeps xs) (hlt : xs.length < 2 ^ 32) :
    (p.nextId - 1).toNat = xs.length := by
  rw [h.nextId_eq, ofNat_add]
  simp only [ofNat_eq_ofNat, add_sub_cancel]
  exact Nat.mod_eq_of_lt hlt

theorem Keeps.oldestSlot_eq (h : p.Keeps xs) (hlt : xs.length < 2 ^ 32) :
    p.oldestSlot = Recent.oldest provenanceMaxRecords xs.length := by
  unfold oldestSlot Recent.oldest
  rw [h.recordCount_eq, h.nextId_sub_one hlt]
  split_ifs <;> first | rfl | omega

theorem Keeps.records_storeLocked (h : p.Keeps xs) (hlt : xs.length < 2 ^ 32) (c : Happening) :
    (storeLocked p c).2.records =
      Function.update p.records (Fin.ofNat _ xs.length) (c.record p.nextId) := by
  unfold storeLocked
  by_cases hc : p.recordCount < provenanceMaxRecords
  · have hcount : p.recordCount = xs.length := by have := h.recordCount_eq; omega
    have hcell : (⟨p.recordCount, hc⟩ : Fin provenanceMaxRecords) = Fin.ofNat _ xs.length :=
      Fin.ext (by rw [← hcount]; exact (Nat.mod_eq_of_lt hc).symm)
    simp only [dif_pos hc, hcell]
  · simp only [dif_neg hc, h.nextId_sub_one hlt]

theorem Keeps.storeLocked (h : p.Keeps xs) (hlt : xs.length < 2 ^ 32) (c : Happening) :
    (storeLocked p c).2.Keeps (xs ++ [c.record p.nextId]) := by
  have hcount := h.recordCount_eq
  have hlen : (xs ++ [c.record p.nextId]).length = xs.length + 1 := by simp
  have hrecords := h.records_storeLocked hlt c
  constructor
  case cells => exact hrecords ▸ h.cells.push _
  case recordCount_eq =>
    unfold Aevros.storeLocked
    split
    · show p.recordCount + 1 = _
      omega
    · show p.recordCount = _
      omega
  case nextId_eq =>
    have hnext : (Aevros.storeLocked p c).2.nextId = p.nextId + 1 := by
      unfold Aevros.storeLocked
      split <;> rfl
    rw [hlen, hnext, h.nextId_eq, ofNat_add (xs.length + 1)]
    rfl
  case dropped_eq =>
    rw [hlen]
    unfold Aevros.storeLocked
    split
    · rw [h.dropped_eq, Nat.sub_eq_zero_of_le (by omega), Nat.sub_eq_zero_of_le (by omega)]
    · rw [h.dropped_eq, show xs.length + 1 - provenanceMaxRecords =
        xs.length - provenanceMaxRecords + 1 by omega, ofNat_add]
      rfl
  case valid_lt =>
    intro i hi
    rw [hlen]
    by_cases hic : i = Fin.ofNat _ xs.length
    · rw [hic]
      exact Nat.lt_succ_of_le (Nat.mod_le _ _)
    · rw [hrecords, Function.update_of_ne hic] at hi
      exact (h.valid_lt i hi).trans (Nat.lt_succ_self _)

theorem keeps_recorded (p : Provenance) (calls : List Happening)
    (hn : calls.countP Happening.inputValid < 2 ^ 32) :
    (Runs.run note (provenanceInit p) calls).Keeps (recorded calls) := by
  induction calls using List.reverseRecOn with
  | nil => exact keeps_init p
  | append_singleton calls c ih =>
    rw [countP_append] at hn
    have h := ih (by omega)
    rw [Runs.run_append]
    show (note _ c).Keeps _
    cases hv : c.inputValid with
    | true =>
      rw [note, provenanceRecord, if_pos hv, recorded_concat_of_valid hv, ← h.nextId_eq]
      apply h.storeLocked
      rw [length_recorded]
      omega
    | false =>
      rw [note, provenanceRecord, hv, recorded_concat_of_not_valid hv]
      exact h

theorem Keeps.window_eq (h : p.Keeps xs) (hlt : xs.length < 2 ^ 32) :
    p.window = xs.rtake provenanceMaxRecords := by
  rw [window, h.recordCount_eq, h.oldestSlot_eq hlt]
  exact h.cells.read

theorem Keeps.toNat_dropped (h : p.Keeps xs) (hlt : xs.length < 2 ^ 32) :
    p.dropped.toNat = xs.length - p.recordCount := by
  rw [h.dropped_eq, h.recordCount_eq, toNat_ofNat]
  omega

theorem Keeps.provenanceGet_iff (h : p.Keeps xs) (hvalid : ∀ r ∈ xs, r.valid = true)
    (hids : (xs.map ProvenanceRecord.id).Nodup) (hpos : ∀ r ∈ xs, r.id ≠ 0) {id : Word}
    {r : ProvenanceRecord} :
    provenanceGet p id = some r ↔ r ∈ xs.rtake provenanceMaxRecords ∧ r.id = id := by
  -- a valid place was written, and what it holds is among the kept records
  have hcell : ∀ i, (p.records i).valid = true ↔ i.val < xs.length := by
    refine fun i => ⟨h.valid_lt i, fun hi => ?_⟩
    obtain ⟨j, hj, -, -, he⟩ := h.cells.cell hi
    exact he ▸ hvalid _ (getElem_mem hj)
  have hmem : ∀ r, r ∈ xs.rtake provenanceMaxRecords ↔
      ∃ i, (p.records i).valid ∧ p.records i = r := by
    intro r
    rw [h.cells.mem_rtake_iff]
    simp only [hcell]
  unfold provenanceGet
  constructor
  · intro hget
    split at hget
    · cases hget
    · obtain ⟨i, hi, rfl⟩ := Option.map_eq_some_iff.mp hget
      have hfound := Fin.eq_true_of_find?_eq_some hi
      rw [Bool.and_eq_true, decide_eq_true_eq] at hfound
      exact ⟨(hmem _).mpr ⟨i, hfound.1, rfl⟩, hfound.2⟩
  · rintro ⟨hr, rfl⟩
    have hsub : ∀ r ∈ xs.rtake provenanceMaxRecords, r ∈ xs := fun r => mem_of_mem_drop
    rw [if_neg (hpos r (hsub r hr))]
    obtain ⟨i, hi, rfl⟩ := (hmem r).mp hr
    cases hf : Fin.find? fun j => (p.records j).valid && (p.records j).id = (p.records i).id with
    | none =>
      have := Fin.eq_false_of_find?_eq_none hf i
      simp [hi] at this
    | some j =>
      have hfound := Fin.eq_true_of_find?_eq_some hf
      rw [Bool.and_eq_true, decide_eq_true_eq] at hfound
      have hj := hsub _ ((hmem _).mpr ⟨j, hfound.1, rfl⟩)
      exact congrArg some (inj_on_of_nodup_map hids hj (hsub _ hr) hfound.2)

end Provenance

theorem pairwise_id_recorded {calls : List Happening}
    (hn : calls.countP Happening.inputValid < 2 ^ 32) :
    ((recorded calls).map ProvenanceRecord.id).Pairwise (· < ·) := by
  rw [pairwise_iff_getElem]
  intro i j hi hj hij
  rw [length_map] at hi hj
  have hlen := length_recorded calls
  rw [getElem_map, getElem_map, id_recorded hi, id_recorded hj, lt_def, toNat_ofNat, toNat_ofNat]
  omega

theorem id_ne_zero_of_mem_recorded {calls : List Happening}
    (hn : calls.countP Happening.inputValid < 2 ^ 32) {r : ProvenanceRecord}
    (hr : r ∈ recorded calls) : r.id ≠ 0 := by
  obtain ⟨i, hi, rfl⟩ := getElem_of_mem hr
  have hlen := length_recorded calls
  intro h0
  have := congrArg BitVec.toNat ((id_recorded hi).symm.trans h0)
  rw [toNat_ofNat, Nat.mod_eq_of_lt (by omega)] at this
  exact Nat.succ_ne_zero i this

/-- The snapshot is the last `min n 256` of the `n` records made, and a number finds its record. -/
theorem latest_records_kept (p : Provenance) (calls : List Happening)
    (hn : calls.countP Happening.inputValid < 2 ^ 32) :
    let s := Runs.run Provenance.note (provenanceInit p) calls
    let kept := (recorded calls).rtake provenanceMaxRecords
    (provenanceGetSnapshot s).records = kept ∧ (provenanceGetSnapshot s).recordCount = kept.length ∧
      kept.length = min (calls.countP Happening.inputValid) 256 ∧
      (kept.map ProvenanceRecord.id).Pairwise (· < ·) ∧
      (provenanceGetSnapshot s).dropped.toNat = calls.countP Happening.inputValid - kept.length ∧
      ∀ id r, provenanceGet s id = some r ↔ r ∈ kept ∧ r.id = id := by
  intro s kept
  have hlen := length_recorded calls
  have hlt : (recorded calls).length < 2 ^ 32 := hlen ▸ hn
  have h : s.Keeps (recorded calls) := Provenance.keeps_recorded p calls hn
  have hkept : kept.length = min (calls.countP Happening.inputValid) 256 := by
    show (List.drop _ _).length = _
    rw [length_drop]
    show _ - (_ - 256) = _
    omega
  have hcount : s.recordCount = kept.length := by
    rw [h.recordCount_eq, hlen, hkept]
    rfl
  have hids := pairwise_id_recorded hn
  refine ⟨h.window_eq hlt, hcount, hkept, ?_, ?_, fun id r => ?_⟩
  · exact hids.sublist ((drop_sublist _ _).map _)
  · exact (h.toNat_dropped hlt).trans (by rw [hlen, hcount])
  · exact h.provenanceGet_iff (fun r => valid_of_mem_recorded) (hids.imp BitVec.ne_of_lt)
      (fun r => id_ne_zero_of_mem_recorded hn)

theorem two_records_kept :
    let irq : Happening := ⟨⟨.interrupt, 11⟩, ⟨.driver, 1⟩, .triggered, .interrupt, 5⟩
    let nic : Happening := ⟨⟨.driver, 1⟩, ⟨.network, 7⟩, .created, .delivery, 6⟩
    let s := Runs.run Provenance.note (provenanceInit .zero) [irq, nic]
    (provenanceGetSnapshot s).records = [irq.record 1, nic.record 2] ∧
      provenanceGet s 2 = some (nic.record 2) := by
  intro irq nic s
  obtain ⟨hrecords, -, -, -, -, hget⟩ :=
    latest_records_kept .zero [irq, nic] (show [irq, nic].countP _ < 2 ^ 32 by decide)
  have hkept : (recorded [irq, nic]).rtake provenanceMaxRecords = [irq.record 1, nic.record 2] := by
    rw [List.rtake, Nat.sub_eq_zero_of_le (by decide)]
    rfl
  exact ⟨hrecords.trans hkept, (hget _ _).mpr ⟨by rw [hkept]; simp, rfl⟩⟩

end Aevros
