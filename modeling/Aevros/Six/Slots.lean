import Aevros.Library.Keyed
import Aevros.Six.Fragments

/-! # The slots as a map from packets

The bitmap of a slot is a set of units, and the slots are a map from the packets
that are being reassembled. A fragment changes the map at its own packet only.
-/

namespace Aevros

open Keyed Reassembly Function

theorem bitTest_bitSet (b : Bitmap) {u v : ℕ} (hu : u < units) (hv : v < units) :
    bitTest (bitSet b u) v = true ↔ v = u ∨ bitTest b v = true := by
  have hbyte : Fin.ofNat unitBytes (v / 8) = Fin.ofNat unitBytes (u / 8) ↔ v / 8 = u / 8 := by
    rw [Fin.ext_iff, Fin.val_ofNat, Fin.val_ofNat, Nat.mod_eq_of_lt (Nat.div_lt_of_lt_mul hv),
      Nat.mod_eq_of_lt (Nat.div_lt_of_lt_mul hu)]
  unfold bitTest bitSet
  by_cases h : v / 8 = u / 8
  · rw [hbyte.mpr h, update_self, BitVec.getLsbD_or, Bool.or_eq_true, or_comm]
    refine or_congr_left ?_
    simp only [BitVec.getLsbD_shiftLeft, BitVec.getLsbD_one, Bool.and_eq_true, decide_eq_true_eq,
      Bool.not_eq_true', decide_eq_false_iff_not]
    omega
  · rw [update_of_ne (mt hbyte.mp h)]
    exact (or_iff_right fun he => h (by rw [he])).symm

theorem bitTest_foldl_bitSet (b : Bitmap) {us : List ℕ} (hus : ∀ u ∈ us, u < units) {v : ℕ}
    (hv : v < units) :
    bitTest (us.foldl bitSet b) v = true ↔ v ∈ us ∨ bitTest b v = true := by
  induction us generalizing b with
  | nil => simp
  | cons u us ih =>
    rw [List.foldl_cons, ih _ fun w hw => hus w (List.mem_cons_of_mem _ hw),
      bitTest_bitSet b (hus u List.mem_cons_self) hv, List.mem_cons]
    tauto

theorem rangeOverlaps_iff {b : Bitmap} {start stop : ℕ} :
    rangeOverlaps b start stop = true ↔ ∃ u, (start ≤ u ∧ u < stop) ∧ bitTest b u = true := by
  unfold rangeOverlaps
  rw [List.any_eq_true]
  refine exists_congr fun u => and_congr_left fun _ => ?_
  rw [List.mem_range'_1]
  omega

namespace Reassembly

variable (s : Reassembly) (f : Fragment)

/-- What a fragment does to the slot of its packet, and what is handed out. -/
def take : Option Reassembled × Reassembly :=
  if rangeOverlaps s.unitBitmap f.offsetUnits f.endUnit then (none, s.abortSlot)
  else if !f.moreFragments && s.haveLast then (none, (s.copy f).abortSlot)
  else
    let s := (s.copy f).noteLast f
    if s.complete then (some s.output, s.abortSlot) else (none, s)

def key : Option FragmentKey := tag s.inUse (s.srcIp, s.dstIp, s.id)

@[simp] theorem key_abortSlot : s.abortSlot.key = none := rfl

theorem key_noteLast_copy : ((s.copy f).noteLast f).key = s.key := by
  rw [noteLast_eq]
  rfl

theorem key_take : (s.take f).2.key = none ∨ (s.take f).2.key = s.key := by
  unfold take
  split_ifs
  · exact .inl rfl
  · exact .inl rfl
  · dsimp only
    split_ifs
    · exact .inl rfl
    · exact .inr (key_noteLast_copy s f)

end Reassembly

namespace Fragments

variable (r : Fragments) (i : Fin fragment6MaxReassemblies) (s : Reassembly) (f : Fragment)

theorem collect_answer : (r.collect i s f).1 = (s.take f).1 := by
  unfold collect take
  dsimp only [copy]
  split_ifs <;> rfl

theorem collect_slots : (r.collect i s f).2.slots = update r.slots i (s.take f).2 := by
  unfold collect take
  dsimp only [copy]
  split_ifs <;> rfl

end Fragments

theorem findSlot_eq (slots : Fin fragment6MaxReassemblies → Reassembly) (src dst : Ip6)
    (id : Word) : findSlot slots src dst id = find key slots (src, dst, id) := by
  refine congrArg Fin.find? (funext fun i => Bool.eq_iff_iff.mpr ?_)
  simp only [key, tag_eq_some_iff, Prod.mk.injEq, Bool.and_eq_true, decide_eq_true_eq]
  tauto

theorem freeReassembly_eq (slots : Fin fragment6MaxReassemblies → Reassembly) :
    freeReassembly slots = free key slots :=
  free_tag _ (fun s : Reassembly => (s.srcIp, s.dstIp, s.id)) slots

section Receive

variable {now : Word} {r : Fragments} {src dst : Ip6} {p : Packet} {f : Fragment}
  {i : Fin fragment6MaxReassemblies} {s : Reassembly}

/-- The slot that a fragment goes to: the one of its packet, or a new one. -/
def Fragments.Serves (r : Fragments) (now : Word) (src dst : Ip6) (f : Fragment)
    (i : Fin fragment6MaxReassemblies) (s : Reassembly) : Prop :=
  Keyed.place key r.slots (src, dst, f.id) = some i ∧ (get key r.slots (src, dst, f.id) = some s ∨
      get key r.slots (src, dst, f.id) = none ∧ s = (r.slots i).create now src dst f)

theorem Fragments.Serves.key_eq (h : r.Serves now src dst f i s) :
    s.key = some (src, dst, f.id) := by
  obtain ⟨-, hget | ⟨-, rfl⟩⟩ := h
  · obtain ⟨j, hj, rfl⟩ := Option.map_eq_some_iff.mp hget
    exact key_of_find hj
  · rfl

theorem receive_cases (now : Word) (r : Fragments) (src dst : Ip6) (hf : Fragment.read p = some f) :
    ((fragment6Receive now r src dst p).1 = none ∧
      ((fragment6Receive now r src dst p).2.slots = r.slots ∨
        ∃ i, Keyed.place key r.slots (src, dst, f.id) = some i ∧
          (fragment6Receive now r src dst p).2.slots = update r.slots i (r.slots i).abortSlot)) ∨
    ∃ i s, r.Serves now src dst f i s ∧ fragment6Receive now r src dst p = r.collect i s f := by
  unfold fragment6Receive Fragments.Serves Keyed.place Keyed.get
  rw [hf]
  dsimp only
  rw [findSlot_eq, freeReassembly_eq]
  split_ifs with halign hlong
  · exact .inl ⟨rfl, .inl rfl⟩
  · cases find key r.slots (src, dst, f.id) with
    | some i => exact .inl ⟨rfl, .inr ⟨i, rfl, rfl⟩⟩
    | none => exact .inl ⟨rfl, .inl rfl⟩
  · cases find key r.slots (src, dst, f.id) with
    | some i =>
      dsimp only
      split_ifs with hnext
      · exact .inl ⟨rfl, .inr ⟨i, rfl, rfl⟩⟩
      · exact .inr ⟨i, _, ⟨rfl, .inl rfl⟩, rfl⟩
    | none =>
      cases free key r.slots with
      | none => exact .inl ⟨rfl, .inl rfl⟩
      | some i => exact .inr ⟨i, _, ⟨rfl, .inr ⟨rfl, rfl⟩⟩, rfl⟩

theorem receive_taken (now : Word) (halign : f.moreFragments = true → f.data.length % 8 = 0)
    (hfits : f.offsetBytes + f.data.length ≤ fragment6MaxTotalBytes)
    (hf : Fragment.read p = some f)
    (hroom : (Keyed.place key r.slots (src, dst, f.id)).isSome)
    (hagree : ∀ s, get key r.slots (src, dst, f.id) = some s → s.nextHeader = f.nextHeader) :
    ∃ i s, r.Serves now src dst f i s ∧ fragment6Receive now r src dst p = r.collect i s f := by
  unfold fragment6Receive Fragments.Serves
  unfold Keyed.place Keyed.get at *
  rw [hf]
  dsimp only
  rw [findSlot_eq, freeReassembly_eq, if_neg (by simpa using halign), if_neg (Nat.not_lt.mpr hfits)]
  cases hfind : find key r.slots (src, dst, f.id) with
  | some i =>
    rw [hfind] at hagree
    dsimp only
    rw [if_neg (not_not.mpr (hagree _ rfl))]
    exact ⟨i, _, ⟨rfl, .inl rfl⟩, rfl⟩
  | none =>
    rw [hfind] at hroom
    obtain ⟨i, hi⟩ := Option.isSome_iff_exists.mp hroom
    dsimp only at hi ⊢
    rw [hi]
    exact ⟨i, _, ⟨rfl, .inr ⟨rfl, rfl⟩⟩, rfl⟩

theorem receive_frame (now : Word) (src dst : Ip6)
    (hu : Unique key r.slots) (hf : Fragment.read p = some f) :
    Unique key (fragment6Receive now r src dst p).2.slots ∧
      keys key (fragment6Receive now r src dst p).2.slots ⊆
        insert (src, dst, f.id) (keys key r.slots) ∧
      ∀ k ≠ (src, dst, f.id), get key (fragment6Receive now r src dst p).2.slots k =
          get key r.slots k := by
  obtain ⟨-, hs | ⟨i, hi, hs⟩⟩ | ⟨i, s, hserves, hs⟩ := receive_cases now r src dst hf
  · rw [hs]
    exact ⟨hu, Finset.subset_insert _ _, fun k _ => rfl⟩
  · rw [hs]
    have hx : (r.slots i).abortSlot.key = none ∨
        (r.slots i).abortSlot.key = some (src, dst, f.id) := .inl rfl
    refine ⟨hu.overwrite hi hx, hu.keys_overwrite hi hx, fun k hk => ?_⟩
    rw [hu.get_overwrite hi hx, if_neg hk]
  · have hx := hserves.key_eq ▸ s.key_take f
    rw [hs, Fragments.collect_slots]
    refine ⟨hu.overwrite hserves.1 hx, hu.keys_overwrite hserves.1 hx, fun k hk => ?_⟩
    rw [hu.get_overwrite hserves.1 hx, if_neg hk]

theorem get_collect (hu : Unique key r.slots) (h : r.Serves now src dst f i s) :
    get key (r.collect i s f).2.slots (src, dst, f.id) =
      if (s.take f).2.inUse then some (s.take f).2 else none := by
  have hx := h.key_eq ▸ s.key_take f
  rw [Fragments.collect_slots, hu.get_overwrite h.1 hx, if_pos rfl]
  obtain hx | hx := hx
  · rw [hx, tag_eq_none_iff.mp hx]
    rfl
  · rw [if_pos hx, if_pos (tag_eq_some_iff.mp hx).1]

end Receive

theorem shed_tick (now : Word) (r : Fragments) : Shed key
    (fun s => s.expired now = false) r.slots (fragment6Tick now r).slots := by
  constructor
  · intro i h
    exact if_neg (by simp [h])
  · intro i h
    rw [Bool.not_eq_false] at h
    rw [fragment6Tick]
    dsimp only
    rw [if_pos h]
    rfl

end Aevros
