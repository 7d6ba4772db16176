import Mathlib.Data.List.Basic
import Mathlib.Tactic

/-! # Dyadic blocks

Block `index` of order `order` covers the `2 ^ order` cells from `index * 2 ^ order` on. How often
blocks cover each cell tells whether they overlap and what they fill.
-/

namespace Dyadic

open List

@[ext] structure Block where
  order : ℕ
  index : ℕ
  deriving DecidableEq

namespace Block

def Covers (b : Block) (c : ℕ) : Prop := c / 2 ^ b.order = b.index

instance (b : Block) (c : ℕ) : Decidable (b.Covers c) :=
  inferInstanceAs (Decidable (c / 2 ^ b.order = b.index))

def first (b : Block) : ℕ := b.index * 2 ^ b.order

def buddy (b : Block) : Block := ⟨b.order, b.index ^^^ 1⟩

def parent (b : Block) : Block := ⟨b.order + 1, b.index / 2⟩

variable {b b' : Block} {c : ℕ}

theorem covers_iff : b.Covers c ↔ b.first ≤ c ∧ c < b.first + 2 ^ b.order := by
  have hpos := Nat.two_pow_pos b.order
  rw [Covers, first, Nat.div_eq_iff hpos]
  constructor <;> rintro ⟨h₁, h₂⟩ <;> constructor <;> omega

theorem covers_first (b : Block) : b.Covers b.first := by
  rw [covers_iff]
  have := Nat.two_pow_pos b.order
  omega

theorem xor_one_div_two (i : ℕ) : (i ^^^ 1) / 2 = i / 2 := by
  rw [← Nat.shiftRight_one, Nat.shiftRight_xor_distrib]
  simp [Nat.shiftRight_one]

theorem xor_one_ne (i : ℕ) : i ^^^ 1 ≠ i := by
  intro h
  have hxor : i ^^^ (i ^^^ 1) = 1 := by rw [← Nat.xor_assoc, Nat.xor_self, Nat.zero_xor]
  rw [h, Nat.xor_self] at hxor
  exact zero_ne_one hxor

theorem div_two_eq_iff {i j : ℕ} : j / 2 = i / 2 ↔ j = i ∨ j = i ^^^ 1 := by
  constructor
  · have h₁ := xor_one_div_two i
    have h₂ := xor_one_ne i
    omega
  · rintro (rfl | rfl)
    · rfl
    · exact xor_one_div_two i

@[simp] theorem buddy_buddy (b : Block) : b.buddy.buddy = b := by
  ext
  · rfl
  · show b.index ^^^ 1 ^^^ 1 = b.index
    rw [Nat.xor_assoc, Nat.xor_self, Nat.xor_zero]

theorem covers_parent_iff : b.parent.Covers c ↔ b.Covers c ∨ b.buddy.Covers c := by
  show c / 2 ^ (b.order + 1) = b.index / 2 ↔ _
  rw [pow_succ, ← Nat.div_div_eq_div_mul]
  exact div_two_eq_iff

theorem not_covers_buddy (h : b.Covers c) : ¬ b.buddy.Covers c :=
  fun h' => xor_one_ne b.index (h'.symm.trans h)

theorem eq_of_covers (ho : b.order = b'.order) (h : b.Covers c) (h' : b'.Covers c) : b = b' := by
  ext
  · exact ho
  · exact h.symm.trans ((by rw [ho] : c / 2 ^ b.order = c / 2 ^ b'.order).trans h')

theorem covers_of_covers (ho : b.order ≤ b'.order) {d : ℕ} (h : b.Covers c) (h' : b'.Covers c)
    (hd : b.Covers d) : b'.Covers d := by
  have hdiv : ∀ e, e / 2 ^ b'.order = e / 2 ^ b.order / 2 ^ (b'.order - b.order) := by
    intro e
    rw [Nat.div_div_eq_div_mul, ← pow_add, Nat.add_sub_cancel' ho]
  calc d / 2 ^ b'.order = b.index / 2 ^ (b'.order - b.order) := by rw [hdiv, hd]
    _ = c / 2 ^ b'.order := by rw [hdiv, h]
    _ = b'.index := h'

theorem order_le_of_covers (h : ∀ c, b.Covers c → b'.Covers c) : b.order ≤ b'.order := by
  have hpos := Nat.two_pow_pos b.order
  have h₁ := covers_iff.mp (h _ b.covers_first)
  have h₂ := covers_iff.mp (h (b.first + 2 ^ b.order - 1) (covers_iff.mpr (by omega)))
  have hle : 2 ^ b.order ≤ 2 ^ b'.order := by omega
  exact (Nat.pow_le_pow_iff_right (by omega)).mp hle

theorem covers_buddy_of_lt (ho : b.order < b'.order) (h : b'.Covers b.first) :
    b'.Covers b.buddy.first :=
  covers_of_covers (b := b.parent) ho (covers_parent_iff.mpr (Or.inl b.covers_first)) h
    (covers_parent_iff.mpr (Or.inr b.buddy.covers_first))

end Block

def cover (bs : List Block) (c : ℕ) : ℕ := bs.countP fun b => b.Covers c

variable {bs bs' : List Block} {b b' root : Block} {c : ℕ}

@[simp] theorem cover_nil (c : ℕ) : cover [] c = 0 := rfl

theorem cover_cons (b : Block) (bs : List Block) (c : ℕ) :
    cover (b :: bs) c = cover bs c + if b.Covers c then 1 else 0 := by
  simp [cover, countP_cons]

@[simp] theorem cover_append (bs bs' : List Block) (c : ℕ) :
    cover (bs ++ bs') c = cover bs c + cover bs' c := countP_append

theorem cover_perm (h : bs.Perm bs') (c : ℕ) : cover bs c = cover bs' c := h.countP_eq _

theorem cover_pos_iff : 0 < cover bs c ↔ ∃ b ∈ bs, b.Covers c := by
  simp [cover]

theorem cover_parent (b : Block) (c : ℕ) : cover [b.parent] c = cover [b, b.buddy] c := by
  simp only [cover_cons, Block.covers_parent_iff]
  by_cases h : b.Covers c
  · simp [Block.not_covers_buddy h]
  · by_cases h' : b.buddy.Covers c <;> simp [h]

section

variable (h : ∀ c, cover bs c ≤ 1)

include h

theorem pairwise_of_cover_le : bs.Pairwise fun b b' => ∀ c, b.Covers c → ¬ b'.Covers c := by
  induction bs with
  | nil => exact Pairwise.nil
  | cons b bs ih =>
    refine pairwise_cons.mpr ⟨fun b' hb' c hc hc' => ?_, ih fun c => ?_⟩
    · have hpos : 0 < cover bs c := cover_pos_iff.mpr ⟨b', hb', hc'⟩
      have hle := h c
      rw [cover_cons, if_pos hc] at hle
      omega
    · have hle := h c
      rw [cover_cons] at hle
      omega

theorem nodup_of_cover_le : bs.Nodup := by
  refine (pairwise_of_cover_le h).imp ?_
  rintro b _ hd rfl
  exact hd _ b.covers_first b.covers_first

theorem eq_of_cover_le (hb : b ∈ bs) (hb' : b' ∈ bs)
    (hc : b.Covers c) (hc' : b'.Covers c) : b = b' := by
  by_contra hne
  have hpos : 0 < cover (bs.erase b) c :=
    cover_pos_iff.mpr ⟨b', (mem_erase_of_ne (Ne.symm hne)).mpr hb', hc'⟩
  have hle := h c
  rw [cover_perm (perm_cons_erase hb), cover_cons, if_pos hc] at hle
  omega

end

theorem cover_singleton_le (root : Block) (c : ℕ) : cover [root] c ≤ 1 := by
  rw [cover_cons, cover_nil]
  split <;> omega

theorem covers_of_mem (h : ∀ c, cover bs c = cover [root] c) (hb : b ∈ bs) (hc : b.Covers c) :
    root.Covers c := by
  have hpos : 0 < cover [root] c := (h c) ▸ cover_pos_iff.mpr ⟨b, hb, hc⟩
  simpa using cover_pos_iff.mp hpos

theorem eq_nil_of_cover (h : ∀ c, cover bs c = cover [] c) : bs = [] := by
  rw [eq_nil_iff_forall_not_mem]
  intro b hb
  have hpos : 0 < cover bs b.first := cover_pos_iff.mpr ⟨b, hb, b.covers_first⟩
  rw [h, cover_nil] at hpos
  omega

theorem order_eq_of_cover (h : ∀ c, cover bs c = cover [root] c)
    (hbuddy : ∀ b ∈ bs, b.order < root.order → b.buddy ∉ bs) (hb : b ∈ bs)
    (hmin : ∀ b' ∈ bs, b.order ≤ b'.order) : b.order = root.order := by
  have hle : ∀ c, cover bs c ≤ 1 := fun c => (h c).trans_le (cover_singleton_le root c)
  by_contra hne
  have hlt : b.order < root.order :=
    lt_of_le_of_ne (Block.order_le_of_covers fun c => covers_of_mem h hb) hne
  -- some block lies over the first cell of the missing buddy
  have hroot := Block.covers_buddy_of_lt hlt (covers_of_mem h hb b.covers_first)
  have hpos : 0 < cover bs b.buddy.first := by
    rw [h, cover_pos_iff]
    exact ⟨root, mem_singleton_self root, hroot⟩
  obtain ⟨b', hb', hc'⟩ := cover_pos_iff.mp hpos
  rcases (hmin b' hb').lt_or_eq with ho | ho
  · have hc : b'.Covers b.buddy.buddy.first :=
      Block.covers_buddy_of_lt (b := b.buddy) ho hc'
    rw [Block.buddy_buddy] at hc
    exact ho.ne (congrArg Block.order (eq_of_cover_le hle hb hb' b.covers_first hc))
  · have he : b.buddy = b' := Block.eq_of_covers ho b.buddy.covers_first hc'
    exact hbuddy b hb hlt (he ▸ hb')

/-- Blocks without buddies among them that fill `root` are `root` alone. -/
theorem eq_singleton_of_cover (h : ∀ c, cover bs c = cover [root] c)
    (hbuddy : ∀ b ∈ bs, b.order < root.order → b.buddy ∉ bs) : bs = [root] := by
  have hle : ∀ c, cover bs c ≤ 1 := fun c => (h c).trans_le (cover_singleton_le root c)
  have hpos : 0 < cover bs root.first := by
    rw [h, cover_pos_iff]
    exact ⟨root, mem_singleton_self root, root.covers_first⟩
  obtain ⟨b₀, hb₀, -⟩ := cover_pos_iff.mp hpos
  obtain ⟨b, hb, hmin⟩ := Finset.exists_min_image bs.toFinset Block.order ⟨b₀, by simpa using hb₀⟩
  simp only [mem_toFinset] at hb hmin
  have hroot : b = root := Block.eq_of_covers (order_eq_of_cover h hbuddy hb hmin) b.covers_first
    (covers_of_mem h hb b.covers_first)
  subst hroot
  have hmem : ∀ b', b' ∈ bs ↔ b' ∈ [b] := by
    intro b'
    rw [mem_singleton]
    constructor
    · intro hb'
      exact eq_of_cover_le hle hb' hb b'.covers_first (covers_of_mem h hb' b'.covers_first)
    · rintro rfl
      exact hb
  apply perm_singleton.mp
  exact (perm_ext_iff_of_nodup (nodup_of_cover_le hle) (nodup_singleton b)).mpr hmem

/-- The blocks are of at most order `k`, and no two of them are left to join below it. -/
def Joined (k : ℕ) (bs : List Block) : Prop :=
  ∀ b ∈ bs, b.order ≤ k ∧ (b.order < k → b.buddy ∉ bs)

section

variable {bs' : List Block} {b' : Block} {k : ℕ} (h : ∀ c, cover bs c = cover bs' c)
  (hle : ∀ c, cover bs c ≤ 1)

include h hle

theorem eq_of_cover_eq (hbuddy : ∀ x ∈ bs', x.order < b.order → x.buddy ∉ bs') (hb : b ∈ bs)
    (hb' : b' ∈ bs') (ho : b'.order ≤ b.order) (hc : b.Covers b'.first) : b' = b := by
  have hle' : ∀ c, cover bs' c ≤ 1 := fun c => h c ▸ hle c
  -- a block of the other list that meets `b` lies inside it
  have hinside : ∀ x ∈ bs', ∀ c, x.Covers c → b.Covers c → x.order ≤ b.order := by
    intro x hx c hxc hbc
    by_contra hlt
    rw [not_le] at hlt
    have hxb' := Block.covers_of_covers hlt.le hbc hxc hc
    obtain rfl := eq_of_cover_le hle' hx hb' hxb' b'.covers_first
    exact hlt.not_ge ho
  have hfill : ∀ c, cover (bs'.filter fun x => x.order ≤ b.order ∧ b.Covers x.first) c =
      cover [b] c := by
    intro c
    rw [cover, countP_filter, cover_cons, cover_nil, Nat.zero_add]
    split_ifs with hbc
    · have hone : cover bs' c = 1 :=
        le_antisymm (hle' c) (h c ▸ cover_pos_iff.mpr ⟨b, hb, hbc⟩)
      rw [← hone, cover]
      refine countP_congr fun x hx => ?_
      simp only [Bool.and_eq_true, decide_eq_true_eq, and_iff_left_iff_imp]
      intro hxc
      have hxo := hinside x hx c hxc hbc
      exact ⟨hxo, Block.covers_of_covers hxo hxc hbc x.covers_first⟩
    · refine countP_eq_zero.mpr fun x _ => ?_
      simp only [Bool.and_eq_true, decide_eq_true_eq]
      rintro ⟨hxc, hxo, hxb⟩
      exact hbc (Block.covers_of_covers hxo x.covers_first hxb hxc)
  have hsingle := eq_singleton_of_cover hfill fun x hx hxo hxb =>
    hbuddy x (mem_of_mem_filter hx) hxo (mem_of_mem_filter hxb)
  have hmem : b' ∈ bs'.filter fun x => x.order ≤ b.order ∧ b.Covers x.first :=
    mem_filter.mpr ⟨hb', by simp [ho, hc]⟩
  rwa [hsingle, mem_singleton] at hmem

theorem mem_of_cover_eq (hj : Joined k bs) (hj' : Joined k bs') (hb : b ∈ bs) : b ∈ bs' := by
  obtain ⟨b', hb', hc⟩ := cover_pos_iff.mp (h b.first ▸ cover_pos_iff.mpr ⟨b, hb, b.covers_first⟩)
  rcases le_total b'.order b.order with ho | ho
  · have heq := eq_of_cover_eq h hle (fun x hx hlt => (hj' x hx).2 (hlt.trans_le (hj b hb).1)) hb
      hb' ho (Block.covers_of_covers ho hc b.covers_first b'.covers_first)
    exact heq ▸ hb'
  · have heq := eq_of_cover_eq (fun c => (h c).symm) (fun c => h c ▸ hle c)
      (fun x hx hlt => (hj x hx).2 (hlt.trans_le (hj' b' hb').1)) hb' hb ho hc
    exact heq ▸ hb'

/-- The cells that are covered determine blocks that are joined. -/
theorem perm_of_cover_eq (hj : Joined k bs) (hj' : Joined k bs') : bs.Perm bs' := by
  have hle' : ∀ c, cover bs' c ≤ 1 := fun c => h c ▸ hle c
  refine (perm_ext_iff_of_nodup (nodup_of_cover_le hle) (nodup_of_cover_le hle')).mpr fun b => ?_
  constructor
  · exact mem_of_cover_eq h hle hj hj'
  · exact mem_of_cover_eq (fun c => (h c).symm) hle' hj' hj

end

/-- The sizes of blocks sum up to the number of times that cells are covered. -/
theorem sum_sizes {n : ℕ} (hn : ∀ b ∈ bs, b.first + 2 ^ b.order ≤ n) :
    (bs.map fun b => 2 ^ b.order).sum = ∑ c ∈ Finset.range n, cover bs c := by
  induction bs with
  | nil => simp
  | cons b bs ih =>
    have hb : (Finset.range n).filter b.Covers = Finset.Ico b.first (b.first + 2 ^ b.order) := by
      ext c
      rw [Finset.mem_filter, Finset.mem_range, Finset.mem_Ico, Block.covers_iff]
      have := hn b mem_cons_self
      omega
    simp only [map_cons, sum_cons, cover_cons, Finset.sum_add_distrib]
    rw [ih fun x hx => hn x (mem_cons_of_mem b hx), Finset.sum_boole, hb, Nat.card_Ico]
    simp [Nat.add_comm]

end Dyadic
