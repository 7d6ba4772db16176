import Aevros.Memory.Heap
import Aevros.Vfs.Ramfs

/-! # Requests of every size

Sizes are rounded up by doubling a 32-bit number, which for a size above 2^31 goes on for ever.
RAMFS adds the offset and the size of a copy in 32 bits, and compares only the sum.
-/

namespace Aevros.Vfs

open Wrap BitVec

def WholePages (cap : Word) : Prop := ∃ j, cap.toNat = 4096 * 2 ^ j

variable {inode : Inode} {ram ram' : RamInode} {offset size needed cap : Word} {mem : Memory}

theorem WholePages.doubled (h : WholePages cap) : Doubled cap := by
  obtain ⟨j, hj⟩ := h
  have hpow : cap.toNat = 2 ^ (12 + j) := by rw [hj, Nat.pow_add]
  have hlt : 2 ^ (12 + j) < 2 ^ 32 := hpow ▸ cap.isLt
  exact .inr ⟨12 + j, (Nat.pow_lt_pow_iff_right Nat.one_lt_two).mp hlt, hpow⟩

theorem WholePages.pos (h : WholePages cap) : 0 < cap.toNat := by
  obtain ⟨j, hj⟩ := h
  exact hj ▸ Nat.mul_pos (by decide) (Nat.two_pow_pos j)

theorem WholePages.growCap_large {c : Word} {fuel : ℕ} (h : WholePages cap)
    (hneeded : 2 ^ 30 < needed.toNat) (hc : growCap needed fuel cap = some c) :
    0x80000000 ≤ c := by
  obtain ⟨hle, rfl | ⟨j, hj, hpow⟩⟩ := growCap_rule (fun _ h _ => h.double) h.doubled hc
  · exact absurd (le_def.mp hle) (by simp; omega)
  · have hle := le_def.mp hle
    have hexp : 30 < j := (Nat.pow_lt_pow_iff_right Nat.one_lt_two).mp (by omega : 2 ^ 30 < 2 ^ j)
    rw [le_def, hpow]
    exact Nat.pow_le_pow_right Nat.two_pos hexp

theorem growCap_eq_none (h : WholePages cap) (hneeded : 2 ^ 31 < needed.toNat) (fuel : ℕ) :
    growCap needed fuel cap = none := by
  rw [← Option.isNone_iff_eq_none, ← Option.not_isSome, isSome_growCap,
    h.doubled.doublings_eq_none (by omega)]
  rfl

/-- Sizes are rounded up exactly if they are at most 2^31. -/
theorem sizes_rounded_iff (hcap : WholePages cap) :
    ((∃ k, sizeToOrder size = some k ∧ IsLeast {k | size.toNat ≤ 4096 * 2 ^ k} k) ∧
      ∃ c, growCap needed 33 cap = some c ∧ needed ≤ c) ↔
        size.toNat ≤ 2 ^ 31 ∧ needed.toNat ≤ 2 ^ 31 := by
  refine and_congr ⟨?_, fun hsize => ?_⟩ ⟨?_, fun hneeded => ?_⟩
  · rintro ⟨k, hk, -⟩
    exact (sizeToOrder_eq_some_iff.mp hk).1
  · have hleast : IsLeast {k | size.toNat ≤ 4096 * 2 ^ k} _ :=
      ⟨Nat.sInf_mem ⟨19, hsize⟩, fun _ => Nat.sInf_le⟩
    exact ⟨_, sizeToOrder_eq_some_iff.mpr ⟨hsize, hleast⟩, hleast⟩
  · rintro ⟨c, hc, -⟩
    by_contra hlarge
    rw [growCap_eq_none hcap (not_le.mp hlarge)] at hc
    cases hc
  · have hpos := hcap.pos
    have hfuel : needed.toNat ≤ cap.toNat * 2 ^ 32 := by omega
    obtain ⟨c, hc⟩ := growCap_isSome hneeded hfuel
    exact ⟨c, hc, growCap_le hc⟩

theorem two_pages_rounded :
    (∃ k, sizeToOrder 8192 = some k ∧ IsLeast {k | (8192 : Word).toNat ≤ 4096 * 2 ^ k} k) ∧
      ∃ c, growCap 8192 33 4096 = some c ∧ 8192 ≤ c :=
  (sizes_rounded_iff ⟨0, rfl⟩).mpr (by decide)

theorem large_size_not_rounded :
    sizeToOrder 0x80000001 = none ∧ growCap 0x80000001 33 4096 = none := by decide

/-- A request for 2^31 bytes is not answered, so `ramfsExpand` is none there too. -/
theorem kmallocRaw_half (h : Kheap) : kmallocRaw h 0x80000000 = none := by
  have hround : sizeToOrder (0x80000000 + BitVec.ofNat 32 headerBytes) = none := by decide
  rw [kmallocRaw, if_neg (by decide), if_neg (by decide), if_neg (by decide), Kheap.allocBlock,
    hround]
  rfl

def copyTarget (ram : RamInode) (offset size : Word) (mem : Memory) : Option (Option RamInode) :=
  if ram.capacity < offset + size then ramfsExpand ram (offset + size) mem else some (some ram)

def ReadsInside (inode : Inode) (offset size : Word) : Prop :=
  ∃ n bytes, ramfsRead inode offset size = some (n, bytes) ∧
    ∀ i < bytes.length, offset.toNat + i < inode.size.toNat

def WritesInside (inode : Inode) (offset size : Word) (mem : Memory) : Prop :=
  ∀ ram ram', inode.fsPrivate = some ram → copyTarget ram offset size mem = some (some ram') →
    ∀ i < size.toNat, offset.toNat + i < ram'.capacity.toNat

theorem readsInside_iff (hsized : inode.Sized) : ReadsInside inode offset size ↔
    (inode.fsPrivate.isSome → offset ≤ inode.size → offset.toNat + size.toNat < 2 ^ 32) := by
  cases hram : inode.fsPrivate with
  | none => exact ⟨nofun, fun _ => ⟨-1, [], by simp [ramfsRead, hram], by simp⟩⟩
  | some ram =>
    constructor
    · rintro ⟨n, bytes, hcall, -⟩ - hoffset
      by_contra hwrap
      have hle := BitVec.le_def.mp hoffset
      have hcut : ¬ inode.size < offset + size := by
        rw [BitVec.lt_def, BitVec.toNat_add]
        omega
      have hcap := ram.capacity.isLt
      simp only [ramfsRead, hram, if_neg (BitVec.not_lt.mpr hoffset), if_neg hcut] at hcall
      rw [if_pos (by omega)] at hcall
      cases hcall
    · intro h
      by_cases hoffset : offset ≤ inode.size
      · obtain ⟨n, bytes, hcall⟩ := ramfsRead_isSome hram hoffset hsized (h rfl hoffset)
        obtain ⟨rfl, -⟩ := ramfsRead_some hram hoffset hcall
        refine ⟨n, _, hcall, fun i hi => ?_⟩
        rw [List.length_take, List.length_drop, length_contents hram] at hi
        omega
      · exact ⟨0, [], by simp [ramfsRead, hram, BitVec.not_le.mp hoffset], by simp⟩

theorem writesInside_iff (hpages : ∀ ram, inode.fsPrivate = some ram → WholePages ram.capacity) :
    (∀ mem, WritesInside inode offset size mem) ↔ ∀ ram, inode.fsPrivate = some ram →
      2 ^ 32 ≤ offset.toNat + size.toNat →
        ram.capacity < offset + size ∧ 2 ^ 30 < (offset + size).toNat := by
  constructor
  · intro h ram hram hwrap
    by_contra hsmall
    obtain ⟨ram', htarget⟩ : ∃ ram', copyTarget ram offset size (.plenty 0 0 0) =
        some (some ram') := by
      rw [copyTarget]
      split_ifs with hgrow
      · have hfits := not_lt.mp fun hlarge => hsmall ⟨hgrow, hlarge⟩
        obtain ⟨o, ho⟩ := ramfsExpand_isSome (hpages ram hram).pos hfits (.plenty 0 0 0)
        cases o with
        | none => exact absurd (ramfsExpand_none ho) (by decide)
        | some ram' => exact ⟨ram', ho⟩
      · exact ⟨ram, rfl⟩
    have hlast := h _ ram ram' hram htarget (2 ^ 32 - 1 - offset.toNat) (by omega)
    omega
  · intro h mem ram ram' hram htarget i hi
    have hadd := toNat_add offset size
    rw [copyTarget] at htarget
    by_cases hwrap : 2 ^ 32 ≤ offset.toNat + size.toNat
    · -- the doubling ends at 2^31 or never, so nothing is copied
      obtain ⟨hgrow, hlarge⟩ := h ram hram hwrap
      rw [if_pos hgrow, ramfsExpand, if_neg (BitVec.not_le.mpr hgrow)] at htarget
      obtain ⟨c, hc, htarget⟩ := Option.bind_eq_some_iff.mp htarget
      rw [if_pos ((hpages ram hram).growCap_large hlarge hc)] at htarget
      cases htarget
    · have hfits : offset + size ≤ ram'.capacity := by
        split_ifs at htarget with hgrow
        · exact (ramfsExpand_some htarget).1
        · cases htarget
          exact BitVec.not_lt.mp hgrow
      have hfits := le_def.mp hfits
      omega

/-- Copies stay inside exactly if the sum does not wrap, or no copy is made. -/
theorem copies_inside_iff (hsized : inode.Sized)
    (hpages : ∀ ram, inode.fsPrivate = some ram → WholePages ram.capacity) :
    ReadsInside inode offset size ∧ (∀ mem, WritesInside inode offset size mem) ↔
      ∀ ram, inode.fsPrivate = some ram → offset.toNat + size.toNat < 2 ^ 32 ∨ inode.size < offset ∧
        ram.capacity < offset + size ∧ 2 ^ 30 < (offset + size).toNat := by
  rw [readsInside_iff hsized, writesInside_iff hpages, ← BitVec.not_le]
  cases inode.fsPrivate with
  | none => simp
  | some ram =>
    simp only [Option.isSome_some, true_imp_iff, Option.some.injEq, forall_eq', ← Nat.not_lt]
    tauto

def oneByte : Inode := { State.newFile fun _ => 0 with size := 1 }

theorem one_byte_inside : ReadsInside oneByte 0 1 ∧ ∀ mem, WritesInside oneByte 0 1 mem := by
  refine (copies_inside_iff ?_ ?_).mpr fun _ _ => .inl (by decide)
  · rintro ram hram
    cases hram
    decide
  · rintro ram hram
    cases hram
    exact ⟨0, rfl⟩

theorem huge_request_outside : ¬ ReadsInside oneByte 1 0xFFFFFFFF ∧
    ¬ WritesInside oneByte 1 0xFFFFFFFF (.plenty 0 0 0) := by
  constructor
  · rintro ⟨n, bytes, hcall, -⟩
    cases hcall
  · intro h
    exact absurd (h _ _ rfl rfl 4096 (by decide)) (by decide)

end Aevros.Vfs
