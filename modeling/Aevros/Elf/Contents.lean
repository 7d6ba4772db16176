import Aevros.Elf.Placement

/-! # The contents of a segment

The page loop gives each page of a user segment the bytes of the file that belong to its addresses,
and zeros elsewhere.
-/

namespace Aevros

open List BitVec

variable {file : ElfFile} {ph : Phdr} {x v : Word}

theorem toNat_pageAlignDown (x : Word) : (pageAlignDown x).toNat = 4096 * (x.toNat / 4096) := by
  exact toNat_entryAddr x

theorem toNat_pageAlignUp (h : x.toNat + 4095 < 2 ^ 32) :
    (pageAlignUp x).toNat = 4096 * ((x.toNat + 4095) / 4096) := by
  have hsize : (pageSize - 1).toNat = 4095 := by decide
  rw [pageAlignUp, ← pageAlignDown, toNat_pageAlignDown, toNat_add, hsize, Nat.mod_eq_of_lt h]

theorem toNat_add_pageSize (h : x.toNat + 4096 < 2 ^ 32) :
    (x + pageSize).toNat = x.toNat + 4096 := by
  have hsize : pageSize.toNat = 4096 := by decide
  rw [toNat_add, hsize, Nat.mod_eq_of_lt h]

def pagesFrom (v : Word) (n : ℕ) : List Word :=
  (List.range n).map fun i => v + BitVec.ofNat 32 (4096 * i)

theorem pagesFrom_succ (v : Word) (n : ℕ) :
    pagesFrom v (n + 1) = v :: pagesFrom (v + pageSize) n := by
  have hsucc : ∀ i, v + BitVec.ofNat 32 (4096 * (i + 1)) =
      v + pageSize + BitVec.ofNat 32 (4096 * i) := by
    intro i
    rw [Nat.mul_succ, Nat.add_comm, BitVec.ofNat_add, BitVec.add_assoc]
    rfl
  rw [pagesFrom, range_succ_eq_map, map_cons, map_map, BitVec.add_zero]
  exact congrArg (v :: ·) (map_congr_left fun i _ => hsucc i)

theorem mem_pagesFrom {n : ℕ} (h : v.toNat + 4096 * n < 2 ^ 32) :
    x ∈ pagesFrom v n ↔ ∃ i < n, x.toNat = v.toNat + 4096 * i := by
  have hat : ∀ i < n, (v + BitVec.ofNat 32 (4096 * i)).toNat = v.toNat + 4096 * i := by
    intro i hi
    rw [toNat_add, toNat_ofNat, Nat.mod_eq_of_lt (a := 4096 * i) (by omega),
      Nat.mod_eq_of_lt (by omega)]
  rw [pagesFrom, mem_map]
  constructor
  · rintro ⟨i, hi, rfl⟩
    exact ⟨i, mem_range.mp hi, hat i (mem_range.mp hi)⟩
  · rintro ⟨i, hi, hx⟩
    exact ⟨i, mem_range.mpr hi, eq_of_toNat_eq (by rw [hat i hi, hx])⟩

namespace Phdr

/-- The segment lies in the user part, and has no more bytes in the file than in memory. -/
structure InUser (ph : Phdr) : Prop where
  low : 10 * 2 ^ 22 ≤ ph.virAddress.toNat
  high : ph.virAddress.toNat + ph.memSize.toNat ≤ 768 * 2 ^ 22
  sizes : ph.fileSize.toNat ≤ ph.memSize.toNat

def Covers (ph : Phdr) (x : ℕ) : Prop :=
  ph.virAddress.toNat ≤ x ∧ x < ph.virAddress.toNat + ph.memSize.toNat

def pageCount (ph : Phdr) : ℕ :=
  (ph.virAddress.toNat + ph.memSize.toNat + 4095) / 4096 - ph.virAddress.toNat / 4096

variable (h : ph.InUser)

include h

theorem InUser.toNat_end :
    (ph.virAddress + ph.memSize).toNat = ph.virAddress.toNat + ph.memSize.toNat := by
  have := h.high
  rw [toNat_add, Nat.mod_eq_of_lt (by omega)]

theorem InUser.pages_eq : ph.pages = pagesFrom (pageAlignDown ph.virAddress) ph.pageCount := by
  have := h.high
  have hup : (pageAlignUp (ph.virAddress + ph.memSize)).toNat =
      4096 * ((ph.virAddress.toNat + ph.memSize.toNat + 4095) / 4096) := by
    rw [toNat_pageAlignUp (by rw [h.toNat_end]; omega), h.toNat_end]
  rw [pages, pageAddrs, hup, toNat_pageAlignDown, ← Nat.mul_sub,
    Nat.mul_div_cancel_left _ (by decide)]
  rfl

theorem InUser.bound : (pageAlignDown ph.virAddress).toNat + 4096 * ph.pageCount < 2 ^ 32 := by
  have := h.high
  rw [toNat_pageAlignDown, pageCount]
  omega

theorem InUser.mem_pages : v ∈ ph.pages ↔ 4096 ∣ v.toNat ∧
    ph.virAddress.toNat < v.toNat + 4096 ∧ v.toNat < ph.virAddress.toNat + ph.memSize.toNat := by
  rw [h.pages_eq, mem_pagesFrom h.bound, toNat_pageAlignDown, pageCount]
  constructor
  · omega
  · rintro ⟨hdvd, hlow, hhigh⟩
    exact ⟨v.toNat / 4096 - ph.virAddress.toNat / 4096, by omega, by omega⟩

end Phdr

/-- What belongs at an address of a segment: a byte of the file, or 0. -/
def ElfFile.byteAt (file : ElfFile) (ph : Phdr) (x : ℕ) : Byte :=
  if ph.virAddress.toNat ≤ x ∧ x < ph.virAddress.toNat + ph.fileSize.toNat then
    file.bytes (file.hdr + ph.offset + BitVec.ofNat 32 (x - ph.virAddress.toNat))
  else 0

theorem ElfFile.byteAt_of_not_covers (h : ph.InUser) {x : ℕ} (hx : ¬ ph.Covers x) :
    file.byteAt ph x = 0 := by
  have := h.sizes
  refine if_neg fun hin => hx ⟨hin.1, ?_⟩
  omega

theorem pageByte_copies {srcOff copyStart copyBytes : Word} (k : Fin 4096)
    (h : copyStart.toNat + copyBytes.toNat ≤ 4096) :
    pageByte (writeBytes (fun _ => 0) (file.copies srcOff copyStart copyBytes)) k =
      if copyStart.toNat ≤ k ∧ k < copyStart.toNat + copyBytes.toNat then
        file.bytes (file.hdr + srcOff + BitVec.ofNat 32 (k - copyStart.toNat))
      else 0 := by
  have hplace : ∀ b < copyBytes.toNat, (Fin.ofNat 4096 (copyStart.toNat + b)).val =
      copyStart.toNat + b := fun b hb => Nat.mod_eq_of_lt (by omega)
  split_ifs with hk
  · refine pageByte_writeBytes_of_mem ?_ ?_
    · refine mem_map.mpr ⟨k - copyStart.toNat, mem_range.mpr (by omega), ?_⟩
      refine Prod.ext (Fin.ext ?_) rfl
      rw [hplace _ (by omega)]
      exact Nat.add_sub_of_le hk.1
    · rw [ElfFile.copies, map_map]
      refine Nodup.map_on (fun b hb b' hb' heq => ?_) nodup_range
      have hval := congrArg Fin.val heq
      rw [Function.comp_apply, Function.comp_apply, hplace b (mem_range.mp hb),
        hplace b' (mem_range.mp hb')] at hval
      omega
  · rw [pageByte_writeBytes_of_not_mem]
    · exact extractLsb'_zero
    · intro byte hmem
      obtain ⟨b, hb, heq⟩ := mem_map.mp hmem
      have hval := congrArg (fun e => e.1.val) heq
      dsimp only at hval
      rw [hplace b (mem_range.mp hb)] at hval
      have := mem_range.mp hb
      omega

theorem Phdr.toNat_copyStart (ph : Phdr) (addr : Word) :
    (ph.copyStart addr).toNat = ph.virAddress.toNat - addr.toNat := by
  rw [Phdr.copyStart]
  by_cases hlt : addr < ph.virAddress
  · rw [if_pos hlt, BitVec.toNat_sub_of_le (BitVec.le_of_lt hlt)]
  · have hle : ph.virAddress.toNat ≤ addr.toNat := not_lt.mp hlt
    rw [if_neg hlt, Nat.sub_eq_zero_of_le hle]
    rfl

def Phdr.copied (ph : Phdr) (addr : ℕ) : ℕ := min ph.fileSize.toNat (addr - ph.virAddress.toNat)

structure Running (ph : Phdr) (addr srcOff fileRemaining : Word) : Prop where
  reached : ph.virAddress.toNat < addr.toNat + 4096
  offset : srcOff = ph.offset + BitVec.ofNat 32 (ph.copied addr.toNat)
  left : fileRemaining.toNat = ph.fileSize.toNat - ph.copied addr.toNat

section Running

variable {addr srcOff fileRemaining : Word} (h : Running ph addr srcOff fileRemaining)

include h

theorem Running.toNat_copyBytes : (ph.copyBytes addr fileRemaining).toNat =
    min fileRemaining.toNat (4096 - (ph.virAddress.toNat - addr.toNat)) := by
  have hreached := h.reached
  have hstart := ph.toNat_copyStart addr
  have hsize : pageSize.toNat = 4096 := rfl
  have hlt : ph.copyStart addr < pageSize := BitVec.lt_def.mpr (by omega)
  have hrest : (pageSize - ph.copyStart addr).toNat =
      4096 - (ph.virAddress.toNat - addr.toNat) := by
    rw [BitVec.toNat_sub_of_le (BitVec.le_of_lt hlt), hsize, hstart]
  rw [Phdr.copyBytes]
  by_cases hzero : 0 < fileRemaining
  · rw [if_pos ⟨hzero, hlt⟩]
    by_cases hless : fileRemaining < pageSize - ph.copyStart addr
    · have hless' : fileRemaining.toNat < _ := BitVec.lt_def.mp hless
      rw [if_pos hless]
      omega
    · have hless' : _ ≤ fileRemaining.toNat := BitVec.not_lt.mp hless
      rw [if_neg hless]
      omega
  · have hnat : fileRemaining.toNat = 0 := Nat.eq_zero_of_not_pos fun hpos =>
      hzero (BitVec.lt_def.mpr hpos)
    rw [if_neg fun hand => hzero hand.1, hnat]
    rfl

theorem Running.pageByte (k : Fin 4096) : pageByte (writeBytes (fun _ => 0)
      (file.copies srcOff (ph.copyStart addr) (ph.copyBytes addr fileRemaining))) k =
        file.byteAt ph (addr.toNat + k) := by
  have hreached := h.reached
  have hstart := ph.toNat_copyStart addr
  have hbytes := h.toNat_copyBytes
  have hleft := h.left
  rw [pageByte_copies k (by omega), h.offset, Phdr.copied]
  rw [Phdr.copied] at hleft
  refine ite_congr (propext ⟨fun hin => ?_, fun hin => ?_⟩) (fun hin => ?_) fun _ => rfl
  · omega
  · omega
  · rw [← BitVec.add_assoc, BitVec.add_assoc _ (BitVec.ofNat 32 _), ← BitVec.ofNat_add]
    congr 3
    omega

theorem Running.next (hend : addr.toNat + 4096 < 2 ^ 32) :
    Running ph (addr + pageSize) (srcOff + ph.copyBytes addr fileRemaining)
      (fileRemaining - ph.copyBytes addr fileRemaining) := by
  have hreached := h.reached
  have hbytes := h.toNat_copyBytes
  have hleft := h.left
  have hsize := toNat_add_pageSize hend
  have hcopied : ph.copied (addr.toNat + 4096) =
      ph.copied addr.toNat + (ph.copyBytes addr fileRemaining).toNat := by
    rw [hbytes, hleft, Phdr.copied, Phdr.copied]
    omega
  refine ⟨by omega, ?_, ?_⟩
  · rw [h.offset, hsize, hcopied, BitVec.ofNat_add, BitVec.ofNat_toNat, BitVec.setWidth_eq,
      BitVec.add_assoc]
  · rw [BitVec.toNat_sub_of_le (BitVec.le_def.mpr (by omega)), hsize]
    omega

end Running

theorem pageByte_segmentPages {n : ℕ} {addr srcOff fileRemaining : Word}
    (h : Running ph addr srcOff fileRemaining) (hend : addr.toNat + 4096 * n < 2 ^ 32) :
    ∀ e ∈ segmentPages file ph (pagesFrom addr n) srcOff fileRemaining, ∀ k,
      pageByte e.2 k = file.byteAt ph (e.1.toNat + k) := by
  induction n generalizing addr srcOff fileRemaining with
  | zero => exact nofun
  | succ n ih =>
    have hend : addr.toNat + 4096 + 4096 * n < 2 ^ 32 := by
      rwa [Nat.mul_succ, Nat.add_comm (4096 * n), ← Nat.add_assoc] at hend
    have hnext : addr.toNat + 4096 < 2 ^ 32 := Nat.lt_of_le_of_lt (Nat.le_add_right _ _) hend
    have hend' : (addr + pageSize).toNat + 4096 * n < 2 ^ 32 := by
      rwa [toNat_add_pageSize hnext]
    rw [pagesFrom_succ]
    intro e he k
    rcases mem_cons.mp he with rfl | he
    · exact h.pageByte k
    · exact ih (h.next hnext) hend' e he k

theorem map_fst_segmentPages (addrs : List Word) (srcOff fileRemaining : Word) :
    (segmentPages file ph addrs srcOff fileRemaining).map Prod.fst = addrs := by
  induction addrs generalizing srcOff fileRemaining with
  | nil => rfl
  | cons addr addrs ih => rw [segmentPages, map_cons, ih]

def ElfFile.pagesOf (file : ElfFile) (ph : Phdr) : List (Word × Page) :=
  segmentPages file ph ph.pages ph.offset ph.fileSize

theorem map_fst_pagesOf (file : ElfFile) (ph : Phdr) :
    (file.pagesOf ph).map Prod.fst = ph.pages := map_fst_segmentPages ..

theorem mem_pages_of_mem {e : Word × Page} (he : e ∈ file.pagesOf ph) : e.1 ∈ ph.pages := by
  rw [← map_fst_pagesOf file ph]
  exact mem_map_of_mem he

theorem Phdr.InUser.pageByte_pagesOf (h : ph.InUser) {page : Page}
    (hpage : (v, page) ∈ file.pagesOf ph) (k : Fin 4096) :
    pageByte page k = file.byteAt ph (v.toNat + k) := by
  have hstart : Running ph (pageAlignDown ph.virAddress) ph.offset ph.fileSize := by
    have hcopied : ph.copied (pageAlignDown ph.virAddress).toNat = 0 := by
      rw [Phdr.copied, toNat_pageAlignDown]
      omega
    refine ⟨?_, ?_, ?_⟩
    · rw [toNat_pageAlignDown]
      omega
    · rw [hcopied]
      exact (BitVec.add_zero _).symm
    · rw [hcopied, Nat.sub_zero]
  rw [ElfFile.pagesOf, h.pages_eq] at hpage
  exact pageByte_segmentPages hstart h.bound _ hpage k

end Aevros
