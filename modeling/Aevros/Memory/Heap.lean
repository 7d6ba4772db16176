import Aevros.Library.Wrap
import Aevros.Memory.Buddy

/-! # The kernel heap

Requests of up to 128 bytes are served from three slab caches of 32 slots a page, larger ones with a
block of the buddy allocator that begins with a header of 12 bytes.
-/

namespace Aevros

open BitVec Function Wrap List Option

structure Slab where
  bitmap : Word := 0
  firstSlot : Word := 0
  size : Word := 0

def slabSlotsPerCache : ℕ := 32

/-- `__builtin_ctz` of a value that is not 0: its lowest bit that is set. -/
def ctz (w : Word) : ℕ := ((range 32).find? fun i => w.getLsbD i).getD 0

def slabInit (m : Buddy) (size : Word) : Option (Slab × Buddy) :=
  (buddyAlloc m 0).map fun r => (⟨0, r.1, size⟩, r.2)

def slabAlloc (s : Slab) : Word × Slab :=
  let freeMask := ~~~s.bitmap
  if freeMask = 0 then (0, s)
  else
    let freeBit := ctz freeMask
    (s.firstSlot + BitVec.ofNat 32 freeBit * s.size,
      { s with bitmap := s.bitmap ||| 1#32 <<< freeBit })

def slabFree (s : Slab) (ptr : Word) : Slab :=
  let index := ((ptr - s.firstSlot) / s.size).toInt
  if index < 0 ∨ slabSlotsPerCache ≤ index then s
  else { s with bitmap := s.bitmap &&& ~~~(1#32 <<< index.toNat) }

/-- The three caches, in the order in which `kfree_raw` asks them. -/
inductive CacheId
  | b32
  | b64
  | b128
  deriving DecidableEq

def CacheId.bytes : CacheId → ℕ
  | .b32 => 32
  | .b64 => 64
  | .b128 => 128

def slabCaches : List CacheId := [.b32, .b64, .b128]

structure Kheap where
  buddy : Buddy
  caches : CacheId → Slab

def slabInitAll (m : Buddy) : Option Kheap := do
  let (cache64, m) ← slabInit m 64
  let (cache128, m) ← slabInit m 128
  let (cache32, m) ← slabInit m 32
  return ⟨m, fun | .b32 => cache32 | .b64 => cache64 | .b128 => cache128⟩

/-- The loop of `size_to_order`. Once `block` has wrapped to 0 the loop does not end (`none`). -/
def sizeToOrderLoop (size : Word) : ℕ → Word → ℕ → Option ℕ
  | 0, _, _ => none
  | fuel + 1, block, order =>
    if block < size then sizeToOrderLoop size fuel (block * 2) (order + 1) else some order

def sizeToOrder (size : Word) : Option ℕ := sizeToOrderLoop size 21 4096 0

def headerBytes : ℕ := 12

def allocTypeBuddy : Word := 2

def Buddy.writeHeader (m : Buddy) (hdr : Word) (order : ℕ) : Buddy :=
  { m with
    next := update (update m.next (hdr + 4) allocTypeBuddy) (hdr + 8) (BitVec.ofNat 32 order) }

namespace Kheap

def allocFrom (h : Kheap) (c : CacheId) : Word × Kheap :=
  let r := slabAlloc (h.caches c)
  (r.1, { h with caches := update h.caches c r.2 })

def allocBlock (h : Kheap) (size : Word) : Option (Word × Kheap) := do
  let order ← sizeToOrder (size + BitVec.ofNat 32 headerBytes)
  let (hdr, m) ← buddyAlloc h.buddy order
  if hdr = 0 then return (0, { h with buddy := m })
  else
    return (hdr + BitVec.ofNat 32 headerBytes, { h with buddy := m.writeHeader hdr order })

end Kheap

/-- `none` if the call does not return. -/
def kmallocRaw (h : Kheap) (size : Word) : Option (Word × Kheap) :=
  if size ≤ 32 then some (h.allocFrom .b32)
  else if size ≤ 64 then some (h.allocFrom .b64)
  else if size ≤ 128 then some (h.allocFrom .b128)
  else h.allocBlock size

def Slab.owns (s : Slab) (ptr : Word) : Bool := s.firstSlot ≤ ptr && ptr < s.firstSlot + 4096

def kfreeRaw (h : Kheap) (ptr : Word) : Option Kheap :=
  if ptr = 0 then some h
  else
    match slabCaches.find? fun c => (h.caches c).owns ptr with
    | some c =>
      some { h with caches := update h.caches c (slabFree (h.caches c) ptr) }
    | none =>
      let hdr := ptr - BitVec.ofNat 32 headerBytes
      if h.buddy.next (hdr + 4) = allocTypeBuddy then
        (buddyFree h.buddy hdr (h.buddy.next (hdr + 8)).toInt).map fun m => { h with buddy := m }
      else some h

theorem sizeToOrderLoop_eq {size block : Word} {fuel order : ℕ} :
    sizeToOrderLoop size fuel block order = (doublings size fuel block).map (order + ·) := by
  induction fuel generalizing block order with
  | zero => rfl
  | succ fuel ih =>
    rw [sizeToOrderLoop, doublings]
    split_ifs
    · rw [ih, Option.map_map]
      exact congrArg (Option.map · _) (funext fun n => by simp [Nat.add_right_comm, Nat.add_assoc])
    · rfl

theorem sizeToOrder_eq_some_iff {size : Word} {k : ℕ} : sizeToOrder size = some k ↔
    size.toNat ≤ 2 ^ 31 ∧ IsLeast {k | size.toNat ≤ 4096 * 2 ^ k} k := by
  have heq : sizeToOrder size = doublings size 21 4096 := by simp [sizeToOrder, sizeToOrderLoop_eq]
  rw [heq]
  by_cases hsize : size.toNat ≤ 2 ^ 31
  · have hfuel : size.toNat ≤ (4096 : Word).toNat * 2 ^ 20 := hsize.trans (by decide)
    obtain ⟨n, hn, hleast⟩ := doublings_isLeast (by omega) hfuel
    rw [hn, some_inj]
    exact ⟨fun h => ⟨hsize, h ▸ hleast⟩, fun h => hleast.unique h.2⟩
  · have hpages : Doubled (4096 : Word) := .inr ⟨12, by decide, rfl⟩
    rw [hpages.doublings_eq_none (by omega)]
    exact ⟨nofun, fun h => absurd h.1 hsize⟩

theorem Kheap.allocBlock_cases {h h' : Kheap} {size p : Word}
    (heq : h.allocBlock size = some (p, h')) :
    ∃ order hdr m, sizeToOrder (size + BitVec.ofNat 32 headerBytes) = some order ∧
      buddyAlloc h.buddy order = some (hdr, m) ∧
      ((hdr = 0 ∧ p = 0 ∧ h' = { h with buddy := m }) ∨
        (hdr ≠ 0 ∧ p = hdr + BitVec.ofNat 32 headerBytes ∧
          h' = { h with buddy := m.writeHeader hdr order })) := by
  obtain ⟨order, ho, heq⟩ := bind_eq_some_iff.mp heq
  obtain ⟨⟨hdr, m⟩, hm, heq⟩ := bind_eq_some_iff.mp heq
  refine ⟨order, hdr, m, ho, hm, ?_⟩
  dsimp only at heq
  split_ifs at heq with h0
  · cases heq
    exact .inl ⟨h0, rfl, rfl⟩
  · cases heq
    exact .inr ⟨h0, rfl, rfl⟩

theorem getLsbD_ctz {w : Word} (h : w ≠ 0) : ctz w < 32 ∧ w.getLsbD (ctz w) = true := by
  unfold ctz
  cases hf : (range 32).find? fun i => w.getLsbD i with
  | some i => exact ⟨mem_range.mp (mem_of_find?_eq_some hf), find?_some hf⟩
  | none =>
    refine absurd (eq_of_getLsbD_eq fun i hi => ?_) h
    have := find?_eq_none.mp hf i (mem_range.mpr hi)
    simpa using this

theorem getLsbD_one_shiftLeft {i j : ℕ} (hi : i < 32) :
    (1#32 <<< i).getLsbD j = decide (j = i) := by
  by_cases hj : j = i
  · simp [hj, hi]
  · by_cases hlt : j < i
    · simp [hj, hlt]
    · have : j - i ≠ 0 := by omega
      simp [hj, this]

namespace Slab

variable {s : Slab} {i j : ℕ}

def Taken (s : Slab) (i : ℕ) : Prop := s.bitmap.getLsbD i = true

def slot (s : Slab) (i : ℕ) : ℕ := s.firstSlot.toNat + i * s.size.toNat

/-- A cache whose page has room for all slots, below the end of memory. -/
structure Ready (s : Slab) : Prop where
  pos : 0 < s.size.toNat
  fits : slabSlotsPerCache * s.size.toNat ≤ 4096
  below : s.firstSlot.toNat + 4096 ≤ 2 ^ 31
  page : 0 < s.firstSlot.toNat

structure Same (s s' : Slab) : Prop where
  firstSlot : s'.firstSlot = s.firstSlot
  size : s'.size = s.size

theorem Same.slot_eq {s' : Slab} (h : s.Same s') (i : ℕ) : s'.slot i = s.slot i := by
  rw [slot, slot, h.firstSlot, h.size]

theorem Same.ready {s' : Slab} (h : s.Same s') (hr : s.Ready) : s'.Ready where
  pos := h.size ▸ hr.pos
  fits := h.size ▸ hr.fits
  below := h.firstSlot ▸ hr.below
  page := h.firstSlot ▸ hr.page

variable (h : s.Ready)

include h

theorem Ready.slot_le (hi : i < 32) : s.slot i + s.size.toNat ≤ s.firstSlot.toNat + 4096 := by
  have hfits := h.fits
  have hle : (i + 1) * s.size.toNat ≤ 32 * s.size.toNat := Nat.mul_le_mul_right _ hi
  unfold slot slabSlotsPerCache at *
  rw [Nat.add_mul] at hle
  omega

theorem Ready.slot_inj (he : s.slot i = s.slot j) : i = j := by
  exact Nat.eq_of_mul_eq_mul_right h.pos (Nat.add_left_cancel he)

theorem owns_iff {ptr : Word} :
    s.owns ptr = true ↔ s.firstSlot.toNat ≤ ptr.toNat ∧ ptr.toNat < s.firstSlot.toNat + 4096 := by
  have hb := h.below
  have hend : (s.firstSlot + 4096).toNat = s.firstSlot.toNat + 4096 := by
    exact Nat.mod_eq_of_lt (by simpa using (by omega : s.firstSlot.toNat + 4096 < 2 ^ 32))
  rw [owns, Bool.and_eq_true, decide_eq_true_eq, decide_eq_true_eq, le_def, lt_def, hend]

theorem slabAlloc_cases : (slabAlloc s = (0, s) ∧ ∀ i < 32, s.Taken i) ∨
      ∃ i < 32, ¬ s.Taken i ∧ (slabAlloc s).1.toNat = s.slot i ∧ s.Same (slabAlloc s).2 ∧
        ∀ j, (slabAlloc s).2.Taken j ↔ j = i ∨ s.Taken j := by
  by_cases hfull : ~~~s.bitmap = 0
  · refine .inl ⟨?_, fun i hi => ?_⟩
    · unfold slabAlloc
      rw [if_pos hfull]
    · have hbit := congrArg (fun w : Word => w.getLsbD i) hfull
      simpa [hi, Taken] using hbit
  · right
    obtain ⟨hlt, hbit⟩ := getLsbD_ctz hfull
    have heq : slabAlloc s = (s.firstSlot + BitVec.ofNat 32 (ctz (~~~s.bitmap)) * s.size,
        { s with bitmap := s.bitmap ||| 1#32 <<< ctz (~~~s.bitmap) }) := by
      unfold slabAlloc
      rw [if_neg hfull]
    generalize ctz (~~~s.bitmap) = i at hlt hbit heq
    rw [heq]
    refine ⟨i, hlt, ?_, ?_, ⟨rfl, rfl⟩, fun j => ?_⟩
    · simpa [Taken, hlt] using hbit
    · have hle := h.slot_le hlt
      have hb := h.below
      unfold slot at hle ⊢
      rw [toNat_add, toNat_mul, toNat_ofNat,
        Nat.mod_eq_of_lt (hlt.trans (by norm_num)), Nat.mod_eq_of_lt (a := i * _) (by omega),
        Nat.mod_eq_of_lt (by omega)]
    · simp only [Taken, getLsbD_or, getLsbD_one_shiftLeft hlt, Bool.or_eq_true, decide_eq_true_eq]
      exact or_comm

theorem slabFree_slot {ptr : Word} (hi : i < 32) (hptr : ptr.toNat = s.slot i) :
    s.Same (slabFree s ptr) ∧ ∀ j, (slabFree s ptr).Taken j ↔ j ≠ i ∧ s.Taken j := by
  have hle := h.slot_le hi
  have hindex : ((ptr - s.firstSlot) / s.size).toNat = i := by
    unfold slot at hptr hle
    rw [toNat_udiv, toNat_sub_of_le (le_def.mpr (by omega)), hptr,
      Nat.add_sub_cancel_left, Nat.mul_div_cancel _ h.pos]
  have hint : ((ptr - s.firstSlot) / s.size).toInt = i := by
    rw [toInt_eq_toNat_of_lt (by omega), hindex]
  have heq : slabFree s ptr = { s with bitmap := s.bitmap &&& ~~~(1#32 <<< i) } := by
    unfold slabFree slabSlotsPerCache
    rw [hint, if_neg (by omega), Int.toNat_natCast]
  rw [heq]
  refine ⟨⟨rfl, rfl⟩, fun j => ?_⟩
  simp only [Taken, getLsbD_and, getLsbD_not, getLsbD_one_shiftLeft hi,
    Bool.and_eq_true, decide_eq_true_eq, Bool.not_eq_true', decide_eq_false_iff_not]
  constructor
  · exact fun ⟨hj, _, hne⟩ => ⟨hne, hj⟩
  · exact fun ⟨hne, hj⟩ => ⟨hj, lt_of_getLsbD hj, hne⟩

end Slab

end Aevros
