import Aevros.Library.Wrap
import Aevros.Vfs.Io

/-! # Reading and writing a RAMFS file

The bytes of a file are a list, of which the buffer holds more. A read takes a part of the list,
a write replaces a part and may make the list longer, and growing the buffer keeps it.
-/

namespace Aevros.Vfs

open Buffer Wrap BitVec Option

def Inode.Sized (inode : Inode) : Prop :=
  ∀ ram, inode.fsPrivate = some ram → 0 < ram.capacity.toNat ∧ inode.size ≤ ram.capacity

def Inode.contents (inode : Inode) : List Byte :=
  match inode.fsPrivate with
  | none => []
  | some ram => window ram.data 0 inode.size.toNat

variable {inode inode' : Inode} {ram ram' : RamInode} {offset size needed cap n : Word}
  {buf : ℕ → Byte} {mem : Memory} {bytes : List Byte}

theorem contents_eq (hram : inode.fsPrivate = some ram) :
    inode.contents = window ram.data 0 inode.size.toNat := by rw [Inode.contents, hram]

theorem length_contents (hram : inode.fsPrivate = some ram) :
    inode.contents.length = inode.size.toNat := by rw [contents_eq hram, length_window]

section Read

variable (hram : inode.fsPrivate = some ram) (hoffset : offset ≤ inode.size)

include hram hoffset

theorem ramfsRead_some (hcall : ramfsRead inode offset size = some (n, bytes)) :
    bytes = (inode.contents.drop offset.toNat).take size.toNat ∧ bytes.length = n.toNat := by
  have hle : offset.toNat ≤ inode.size.toNat := le_def.mp hoffset
  have hbytes : n.toNat = min size.toNat (inode.size.toNat - offset.toNat) ∧
      bytes = window ram.data offset.toNat n.toNat := by
    simp only [ramfsRead, hram, if_neg (BitVec.not_lt.mpr hoffset)] at hcall
    by_cases hcut : inode.size < offset + size
    · split_ifs at hcall
      cases hcall
      have hlt := lt_def.mp hcut
      rw [toNat_add] at hlt
      rw [BitVec.toNat_sub_of_le hoffset]
      exact ⟨by omega, rfl⟩
    · split_ifs at hcall with hfits
      cases hcall
      have hlt := BitVec.le_def.mp (BitVec.not_lt.mp hcut)
      rw [toNat_add] at hlt
      exact ⟨by omega, rfl⟩
  rw [contents_eq hram, ← window_eq_take_drop ram.data hle, ← hbytes.1]
  exact ⟨hbytes.2, hbytes.2 ▸ length_window⟩

theorem ramfsRead_isSome (hsized : inode.Sized) (hwrap : offset.toNat + size.toNat < 2 ^ 32) :
    ∃ n bytes, ramfsRead inode offset size = some (n, bytes) := by
  have hle : offset.toNat ≤ inode.size.toNat := BitVec.le_def.mp hoffset
  have hcap := BitVec.le_def.mp (hsized ram hram).2
  simp only [ramfsRead, hram, if_neg (BitVec.not_lt.mpr hoffset)]
  rw [if_neg]
  · exact ⟨_, _, rfl⟩
  · split_ifs with hcut
    · rw [BitVec.toNat_sub_of_le hoffset]
      omega
    · have hlt := BitVec.le_def.mp (BitVec.not_lt.mp hcut)
      rw [BitVec.toNat_add] at hlt
      omega

end Read

theorem growCap_rule {fuel : ℕ} {cap' : Word} {P : Word → Prop}
    (hdouble : ∀ c, P c → c < needed → P (c * 2)) (hcap : P cap)
    (h : growCap needed fuel cap = some cap') : needed ≤ cap' ∧ P cap' := by
  induction fuel generalizing cap with
  | zero => cases h
  | succ fuel ih =>
    rw [growCap] at h
    split_ifs at h with hlt
    · exact ih (hdouble cap hcap hlt) h
    · exact Option.some.inj h ▸ ⟨BitVec.not_lt.mp hlt, hcap⟩

theorem growCap_le {fuel : ℕ} {cap' : Word} (h : growCap needed fuel cap = some cap') :
    needed ≤ cap' :=
  (growCap_rule (P := fun _ => True) (fun _ _ _ => trivial) trivial h).1

theorem isSome_growCap {fuel : ℕ} :
    (growCap needed fuel cap).isSome = (doublings needed fuel cap).isSome := by
  induction fuel generalizing cap with
  | zero => rfl
  | succ fuel ih =>
    rw [growCap, doublings]
    split_ifs
    · rw [ih, isSome_map]
    · rfl

theorem growCap_isSome {fuel : ℕ} (hneeded : needed.toNat ≤ 2 ^ 31)
    (hcap : needed.toNat ≤ cap.toNat * 2 ^ fuel) :
    ∃ cap', growCap needed (fuel + 1) cap = some cap' := by
  obtain ⟨n, hn, -⟩ := doublings_isLeast (by omega) hcap
  rw [← isSome_iff_exists, isSome_growCap, hn]
  rfl

theorem growCap_lt {fuel : ℕ} {cap' : Word} (hneeded : needed.toNat ≤ 2 ^ 30)
    (hcap : cap < needed) (h : growCap needed fuel cap = some cap') : cap' < 0x80000000 := by
  have hstep : ∀ c : Word, c.toNat < 2 ^ 31 → c < needed → (c * 2).toNat < 2 ^ 31 := by
    intro c _ hc
    have := lt_def.mp hc
    rw [toNat_double]
    omega
  have hcap := lt_def.mp hcap
  exact lt_def.mpr (growCap_rule hstep (by omega) h).2

theorem ramfsExpand_some (h : ramfsExpand ram needed mem = some (some ram')) :
    needed ≤ ram'.capacity ∧ ram.capacity ≤ ram'.capacity ∧
      ∀ i < ram.capacity.toNat, ram'.data i = ram.data i := by
  rw [ramfsExpand] at h
  by_cases hle : needed ≤ ram.capacity
  · rw [if_pos hle] at h
    cases some.inj h
    exact ⟨hle, BitVec.le_refl _, fun _ _ => rfl⟩
  · rw [if_neg hle] at h
    obtain ⟨cap, hgrow, h⟩ := bind_eq_some_iff.mp h
    split_ifs at h <;> cases h
    have hneeded := growCap_le hgrow
    refine ⟨hneeded, ?_, fun i hi => ?_⟩
    · exact BitVec.le_trans (BitVec.le_of_lt (BitVec.not_le.mp hle)) hneeded
    · exact if_pos ⟨Nat.zero_le i, by omega⟩

theorem ramfsExpand_isSome (hcap : 0 < ram.capacity.toNat) (hneeded : needed.toNat ≤ 2 ^ 30)
    (mem : Memory) : ∃ o, ramfsExpand ram needed mem = some o := by
  rw [ramfsExpand]
  by_cases hle : needed ≤ ram.capacity
  · exact ⟨_, if_pos hle⟩
  · have hlarge : needed.toNat ≤ ram.capacity.toNat * 2 ^ 32 := by omega
    obtain ⟨cap', hgrow⟩ := growCap_isSome (by omega) hlarge
    have hanswers := growCap_lt hneeded (BitVec.not_le.mp hle) hgrow
    rw [if_neg hle, hgrow, Option.bind_some, if_neg (BitVec.not_le.mpr hanswers)]
    exact ⟨_, rfl⟩

theorem ramfsExpand_none (h : ramfsExpand ram needed mem = some none) : mem.data = false := by
  rw [ramfsExpand] at h
  split_ifs at h with hle hdata
  · cases h
  · obtain ⟨cap, -, h⟩ := bind_eq_some_iff.mp h
    split_ifs at h
    cases h
  · exact Bool.eq_false_of_not_eq_true hdata

def Inode.written (inode : Inode) (ram : RamInode) (offset size : Word) (buf : ℕ → Byte) : Inode :=
  { inode with
    size := if inode.size < offset + size then offset + size else inode.size
    fsPrivate := some { ram with data := patch ram.data offset.toNat size.toNat buf } }

theorem ramfsWrite_cases (hram : inode.fsPrivate = some ram)
    (hcall : ramfsWrite inode offset size buf mem = some (n, inode')) :
    (n = -1 ∧ inode' = inode ∧ mem.data = false) ∨
      ∃ ram' : RamInode, n = size ∧ offset.toNat + size.toNat ≤ ram'.capacity.toNat ∧
        ram.capacity ≤ ram'.capacity ∧ (∀ i < ram.capacity.toNat, ram'.data i = ram.data i) ∧
        inode' = inode.written ram' offset size buf := by
  simp only [ramfsWrite, hram] at hcall
  by_cases hgrow : ram.capacity < offset + size
  · rw [if_pos hgrow] at hcall
    cases hexpand : ramfsExpand ram (offset + size) mem with
    | none =>
      rw [hexpand] at hcall
      cases hcall
    | some o =>
      rw [hexpand] at hcall
      cases o with
      | none =>
        cases hcall
        exact .inl ⟨rfl, rfl, ramfsExpand_none hexpand⟩
      | some ram' =>
        dsimp only at hcall
        by_cases hfits : ram'.capacity.toNat < offset.toNat + size.toNat
        · rw [if_pos hfits] at hcall
          cases hcall
        rw [if_neg hfits] at hcall
        cases hcall
        obtain ⟨-, hcap, hdata⟩ := ramfsExpand_some hexpand
        exact .inr ⟨ram', rfl, Nat.not_lt.mp hfits, hcap, hdata, rfl⟩
  · rw [if_neg hgrow] at hcall
    dsimp only at hcall
    by_cases hfits : ram.capacity.toNat < offset.toNat + size.toNat
    · rw [if_pos hfits] at hcall
      cases hcall
    rw [if_neg hfits] at hcall
    cases hcall
    exact .inr ⟨ram, rfl, Nat.not_lt.mp hfits, BitVec.le_refl _, fun _ _ => rfl, rfl⟩

section Write

variable (hram : inode.fsPrivate = some ram) (hoffset : offset ≤ inode.size) (hsized : inode.Sized)

include hram hoffset hsized

theorem ramfsWrite_some (hcall : ramfsWrite inode offset size buf mem = some (n, inode')) :
    (n = -1 ∧ inode' = inode ∧ mem.data = false) ∨
      n = size ∧ inode'.ops = inode.ops ∧ inode'.fsPrivate.isSome ∧ inode'.Sized ∧
      inode'.size.toNat = max inode.size.toNat (offset.toNat + size.toNat) ∧
      inode'.contents = overwrite inode.contents offset.toNat (window buf 0 size.toNat) := by
  rcases ramfsWrite_cases hram hcall with
    ⟨rfl, rfl, hmem⟩ | ⟨ram', rfl, hfits, hcap, hdata, rfl⟩
  · exact .inl ⟨rfl, rfl, hmem⟩
  have hadd : (offset + n).toNat = offset.toNat + n.toNat := by
    rw [toNat_add, Nat.mod_eq_of_lt (by omega)]
  have hsize : (inode.written ram' offset n buf).size.toNat =
      max inode.size.toNat (offset.toNat + n.toNat) := by
    change (if inode.size < offset + n then offset + n else inode.size).toNat = _
    split_ifs with hgrows
    · have := lt_def.mp hgrows
      omega
    · have := BitVec.le_def.mp (BitVec.not_lt.mp hgrows)
      omega
  obtain ⟨hpos, hold⟩ := hsized ram hram
  have hold := le_def.mp hold
  have hcap := le_def.mp hcap
  refine .inr ⟨rfl, rfl, rfl, ?_, hsize, ?_⟩
  · rintro ram₁ hram₁
    cases hram₁
    rw [le_def]
    exact ⟨by dsimp only; omega, by dsimp only; omega⟩
  · have hsame : window ram.data 0 inode.size.toNat = window ram'.data 0 inode.size.toNat :=
      window_congr fun i hi => (hdata (0 + i) (by omega)).symm
    rw [contents_eq hram, hsame, ← window_patch buf (le_def.mp hoffset), ← hsize]
    rfl

omit hoffset in
theorem ramfsWrite_isSome (hbound : offset.toNat + size.toNat ≤ 2 ^ 30) (buf : ℕ → Byte)
    (mem : Memory) : ∃ n inode', ramfsWrite inode offset size buf mem = some (n, inode') := by
  have hadd : (offset + size).toNat = offset.toNat + size.toNat := by
    rw [toNat_add, Nat.mod_eq_of_lt (by omega)]
  simp only [ramfsWrite, hram]
  by_cases hgrow : ram.capacity < offset + size
  · obtain ⟨o, hexpand⟩ := ramfsExpand_isSome (hsized ram hram).1 (hadd ▸ hbound) mem
    rw [if_pos hgrow, hexpand]
    cases o with
    | none => exact ⟨_, _, rfl⟩
    | some ram' =>
      have hneeded := le_def.mp (ramfsExpand_some hexpand).1
      dsimp only
      rw [if_neg (by omega)]
      exact ⟨_, _, rfl⟩
  · have hneeded := BitVec.le_def.mp (BitVec.not_lt.mp hgrow)
    rw [if_neg hgrow]
    dsimp only
    rw [if_neg (by omega)]
    exact ⟨_, _, rfl⟩

end Write

end Aevros.Vfs
