import Aevros.Library.Dyadic

/-! # A buddy allocator on lists of blocks

A block is taken from the list of its order, or cut from the first larger one, and joined with its
buddy when it comes back. No cell is covered twice, and no free block has a free buddy.
-/

namespace Aevros.Arena

open List Dyadic Function

abbrev Free := ℕ → List ℕ

def blocks (top : ℕ) (f : Free) : List Block :=
  (range (top + 1)).flatMap fun o => (f o).map fun i => ⟨o, i⟩

def push (f : Free) (b : Block) : Free := update f b.order (b.index :: f b.order)

/-- Cut block `i` of order `o + d` down to order `o`; the upper halves become free. -/
def split (o : ℕ) : ℕ → Free → ℕ → ℕ × Free
  | 0, f, i => (i, f)
  | d + 1, f, i => split o d (push f ⟨o + d, 2 * i + 1⟩) (2 * i)

/-- The orders above `o` whose list is not empty, the smallest first. -/
def larger (top o : ℕ) (f : Free) : Option ℕ :=
  (range (top - o)).find? fun d => f (o + d + 1) ≠ []

def alloc (top : ℕ) (f : Free) (o : ℕ) : Option Block × Free :=
  match f o with
  | i :: l => (some ⟨o, i⟩, update f o l)
  | [] =>
    match larger top o f with
    | none => (none, f)
    | some d =>
      match f (o + d + 1) with
      | [] => (none, f)
      | i :: l =>
        let r := split o (d + 1) (update f (o + d + 1) l) i
        (some ⟨o, r.1⟩, r.2)

def release : ℕ → Free → Block → Free
  | 0, f, b => push f b
  | d + 1, f, b =>
    if b.buddy.index ∈ f b.order then
      release d (update f b.order ((f b.order).erase b.buddy.index)) b.parent
    else push f b

variable {top o d i : ℕ} {f : Free} {b : Block} {l : List ℕ} {k : ℕ}

theorem mem_blocks_iff : b ∈ blocks top f ↔ b.order ≤ top ∧ b.index ∈ f b.order := by
  simp only [blocks, mem_flatMap, mem_range, mem_map]
  constructor
  · rintro ⟨o, ho, i, hi, rfl⟩
    exact ⟨Nat.lt_succ_iff.mp ho, hi⟩
  · rintro ⟨ho, hi⟩
    exact ⟨b.order, Nat.lt_succ_iff.mpr ho, b.index, hi, rfl⟩

theorem blocks_perm (ho : o ≤ top) (hl : (f o).Perm (i :: l)) :
    (blocks top f).Perm (⟨o, i⟩ :: blocks top (update f o l)) := by
  have hmem : o ∈ range (top + 1) := mem_range.mpr (Nat.lt_succ_iff.mpr ho)
  have hrange := perm_cons_erase hmem
  -- the other orders are not concerned
  have hrest : ((range (top + 1)).erase o).flatMap (fun k => (f k).map (Block.mk k)) =
      ((range (top + 1)).erase o).flatMap (fun k => (update f o l k).map (Block.mk k)) := by
    apply flatMap_congr
    intro k hk
    have hne : k ≠ o := ((nodup_range).mem_erase_iff.mp hk).1
    rw [update_of_ne hne]
  refine (hrange.flatMap_right _).trans (Perm.trans ?_
    ((hrange.flatMap_right fun k => (update f o l k).map (Block.mk k)).symm.cons _))
  rw [flatMap_cons, flatMap_cons, hrest, update_self]
  exact (hl.map _).append_right _

theorem blocks_push_perm (ho : b.order ≤ top) :
    (blocks top (push f b)).Perm (b :: blocks top f) := by
  have hl : (push f b b.order).Perm (b.index :: f b.order) := by
    rw [push, update_self]
  refine (blocks_perm ho hl).trans (Perm.of_eq ?_)
  rw [push, update_idem, update_eq_self]

theorem cover_push (ho : b.order ≤ top) (c : ℕ) :
    cover (blocks top (push f b)) c = cover (blocks top f) c + cover [b] c := by
  rw [cover_perm (blocks_push_perm ho), cover_cons, cover_cons, cover_nil, Nat.zero_add]

theorem cover_take (ho : o ≤ top) (hl : (f o).Perm (i :: l)) (c : ℕ) : cover (blocks top f) c =
      cover (blocks top (update f o l)) c + cover [⟨o, i⟩] c := by
  rw [cover_perm (blocks_perm ho hl), cover_cons, cover_cons, cover_nil, Nat.zero_add]

theorem cover_halves (o i c : ℕ) :
    cover [⟨o + 1, i⟩] c = cover [⟨o, 2 * i⟩] c + cover [⟨o, 2 * i + 1⟩] c := by
  have hparent : (⟨o, 2 * i⟩ : Block).parent = ⟨o + 1, i⟩ := by simp [Block.parent]
  have hbuddy : (⟨o, 2 * i⟩ : Block).buddy = ⟨o, 2 * i + 1⟩ := by
    have := Block.xor_one_div_two (2 * i)
    have := Block.xor_one_ne (2 * i)
    simp only [Block.buddy, Block.mk.injEq, true_and]
    omega
  rw [← hparent, cover_parent, hbuddy, ← cover_append]
  rfl

theorem cover_split (ho : o + d ≤ top + 1) (c : ℕ) :
    cover (blocks top (split o d f i).2) c + cover [⟨o, (split o d f i).1⟩] c =
      cover (blocks top f) c + cover [⟨o + d, i⟩] c := by
  induction d generalizing f i with
  | zero => rfl
  | succ d ih =>
    rw [split, ih (by omega), cover_push (by simpa using by omega)]
    have := cover_halves (o + d) i c
    rw [show o + (d + 1) = o + d + 1 by omega]
    omega

theorem cover_release (ho : b.order + d = top) (c : ℕ) :
    cover (blocks top (release d f b)) c = cover (blocks top f) c + cover [b] c := by
  induction d generalizing f b with
  | zero => exact cover_push (by omega) c
  | succ d ih =>
    rw [release]
    split
    · next hmem =>
      have htake : cover (blocks top f) c = cover (blocks top
          (update f b.order ((f b.order).erase b.buddy.index))) c + cover [b.buddy] c :=
        cover_take (by omega) (perm_cons_erase hmem) c
      have hpair : cover [b, b.buddy] c = cover [b] c + cover [b.buddy] c :=
        cover_append [b] [b.buddy] c
      rw [ih (by simp only [Block.parent]; omega), cover_parent]
      omega
    · exact cover_push (by omega) c

theorem mem_push_iff {b' : Block} :
    b'.index ∈ push f b b'.order ↔ b' = b ∨ b'.index ∈ f b'.order := by
  by_cases ho : b'.order = b.order
  · rw [push, ho, update_self, mem_cons]
    constructor
    · exact Or.imp_left fun hi => Block.ext ho hi
    · exact Or.imp_left fun he => by rw [he]
  · rw [push, update_of_ne ho]
    exact ⟨Or.inr, fun h => h.resolve_left fun he => ho (congrArg _ he)⟩

/-- No free block of an order below `k` has a free buddy. -/
def Separated (k : ℕ) (f : Free) : Prop :=
  ∀ b : Block, b.order < k → b.index ∈ f b.order → b.buddy.index ∉ f b.order

theorem Separated.mono {f' : Free} (h : Separated k f) (hs : ∀ o, f' o ⊆ f o) : Separated k f' :=
  fun b ho hb hb' => h b ho (hs _ hb) (hs _ hb')

theorem update_subset (h : l ⊆ f o) (k : ℕ) : update f o l k ⊆ f k := by
  by_cases hk : k = o
  · rw [hk, update_self]
    exact h
  · rw [update_of_ne hk]
    exact Subset.refl _

theorem Separated.push (h : Separated k f) (hb : b.order < k → b.buddy.index ∉ f b.order) :
    Separated k (push f b) := by
  intro b' ho hb' hbuddy
  have hbuddy' := mem_push_iff.mp hbuddy
  rcases mem_push_iff.mp hb' with rfl | hfree
  · rcases hbuddy' with he | hmem
    · exact Block.xor_one_ne _ (congrArg Block.index he)
    · exact hb ho hmem
  · rcases hbuddy' with rfl | hmem
    · rw [Block.buddy_buddy] at hb
      exact hb ho hfree
    · exact h b' ho hfree hmem

theorem Separated.release (h : Separated k f) (hk : k ≤ top) (ho : b.order + d = top) :
    Separated k (release d f b) := by
  induction d generalizing f b with
  | zero => exact h.push fun hlt => by omega
  | succ d ih =>
    rw [Arena.release]
    split
    · refine ih (h.mono ?_) (by simp only [Block.parent]; omega)
      exact update_subset erase_subset
    · next hmem => exact h.push fun _ => hmem

theorem split_apply (k : ℕ) (hempty : ∀ k, o ≤ k → k < o + d → f k = []) :
    (¬ (o ≤ k ∧ k < o + d) → (split o d f i).2 k = f k) ∧
      (o ≤ k ∧ k < o + d → ∃ j, (split o d f i).2 k = [j]) := by
  induction d generalizing f i with
  | zero => exact ⟨fun _ => rfl, fun h => by omega⟩
  | succ d ih =>
    have hpush : ∀ k, k ≠ o + d → push f ⟨o + d, 2 * i + 1⟩ k = f k :=
      fun k hk => update_of_ne hk _ _
    obtain ⟨hout, hin⟩ := ih (f := push f ⟨o + d, 2 * i + 1⟩) (i := 2 * i) (fun k h₁ h₂ => by
      rw [hpush k (by omega)]
      exact hempty k h₁ (by omega))
    rw [split]
    refine ⟨fun hk => ?_, fun hk => ?_⟩
    · rw [hout (by omega), hpush k (by omega)]
    · by_cases hkd : k = o + d
      · refine ⟨2 * i + 1, ?_⟩
        have hnil : f (o + d) = [] := hempty _ (by omega) (by omega)
        rw [hout (by omega), hkd, push, update_self, hnil]
      · exact hin (by omega)

theorem Separated.split (h : Separated k f) (hempty : ∀ k, o ≤ k → k < o + d → f k = []) :
    Separated k (split o d f i).2 := by
  intro b ho hb hbuddy
  obtain ⟨hout, hin⟩ := split_apply (i := i) b.order hempty
  by_cases hrange : o ≤ b.order ∧ b.order < o + d
  · obtain ⟨j, hj⟩ := hin hrange
    rw [hj, mem_singleton] at hb hbuddy
    exact Block.xor_one_ne b.index (hbuddy.trans hb.symm)
  · rw [hout hrange] at hb hbuddy
    exact h b ho hb hbuddy

theorem larger_spec (h : larger top o f = some d) :
    d < top - o ∧ f (o + d + 1) ≠ [] ∧ ∀ k < d, f (o + k + 1) = [] := by
  obtain ⟨hd, i, hi, hget, hbefore⟩ := find?_eq_some_iff_getElem.mp h
  rw [getElem_range] at hget
  subst hget
  rw [length_range] at hi
  refine ⟨hi, by simpa using hd, fun k hk => ?_⟩
  simpa [getElem_range] using hbefore k hk

/-- Free and taken blocks cover the cells of `roots`, and free buddies are joined. -/
structure Inv (top : ℕ) (roots : List Block) (f : Free) (out : List Block) : Prop where
  cover_eq : ∀ c, cover (blocks top f ++ out) c = cover roots c
  separated : ∀ r ∈ roots, Separated r.order f

variable {roots out : List Block}

theorem alloc_cases (top : ℕ) (f : Free) (o : ℕ) :
    (f o = [] ∧ larger top o f = none ∧ alloc top f o = (none, f)) ∨
    (∃ i l, f o = i :: l ∧ alloc top f o = (some ⟨o, i⟩, update f o l)) ∨
    ∃ d i l, f o = [] ∧ larger top o f = some d ∧ f (o + d + 1) = i :: l ∧ alloc top f o =
        (some ⟨o, (split o (d + 1) (update f (o + d + 1) l) i).1⟩,
          (split o (d + 1) (update f (o + d + 1) l) i).2) := by
  cases hf : f o with
  | cons i l => exact Or.inr (Or.inl ⟨i, l, rfl, by rw [alloc, hf]⟩)
  | nil =>
    cases hd : larger top o f with
    | none => exact Or.inl ⟨rfl, rfl, by simp only [alloc, hf, hd]⟩
    | some d =>
      cases hf' : f (o + d + 1) with
      | nil => exact absurd hf' (larger_spec hd).2.1
      | cons i l =>
        exact Or.inr (Or.inr ⟨d, i, l, rfl, rfl, hf', by simp only [alloc, hf, hd, hf']⟩)

theorem order_of_alloc (h : (alloc top f o).1 = some b) : b.order = o := by
  rcases alloc_cases top f o with ⟨-, -, he⟩ | ⟨i, l, -, he⟩ | ⟨d, i, l, -, -, -, he⟩
  · rw [he] at h
    cases h
  · rw [he] at h
    cases h
    rfl
  · rw [he] at h
    cases h
    rfl

theorem eq_nil_of_larger (hf : f o = []) (hd : larger top o f = some d) (h₁ : o ≤ k)
    (h₂ : k < o + d + 1) : f k = [] := by
  rcases Nat.eq_or_lt_of_le h₁ with rfl | h₁
  · exact hf
  · obtain ⟨j, rfl⟩ : ∃ j, k = o + j + 1 := ⟨k - o - 1, by omega⟩
    exact (larger_spec hd).2.2 j (by omega)

theorem Inv.alloc (h : Inv top roots f out) (ho : o ≤ top) :
    Inv top roots (alloc top f o).2 ((alloc top f o).1.toList ++ out) := by
  rcases alloc_cases top f o with ⟨-, -, he⟩ | ⟨i, l, hf, he⟩ | ⟨d, i, l, hnil, hd, hf, he⟩
  · rw [he]
    exact h
  · rw [he]
    constructor
    · intro c
      have hcover := h.cover_eq c
      rw [cover_append, cover_take ho (Perm.of_eq hf)] at hcover
      simp only [Option.toList_some, cover_append]
      omega
    · exact fun r hr => (h.separated r hr).mono (update_subset (by simp [hf]))
  · have hlt := (larger_spec hd).1
    rw [he]
    constructor
    · intro c
      have hle : o + (d + 1) ≤ top + 1 := by omega
      have hsplit := cover_split (f := update f (o + d + 1) l) (i := i) hle c
      have hcover := h.cover_eq c
      rw [cover_append, cover_take (by omega) (Perm.of_eq hf)] at hcover
      rw [show o + (d + 1) = o + d + 1 by omega] at hsplit
      simp only [Option.toList_some, cover_append]
      omega
    · intro r hr
      refine ((h.separated r hr).mono
        (update_subset (l := l) (o := o + d + 1) (by simp [hf]))).split ?_
      intro k h₁ h₂
      rw [update_of_ne (by omega)]
      exact eq_nil_of_larger hnil hd h₁ (by omega)

theorem Inv.release (h : Inv top roots f out) (hroots : ∀ r ∈ roots, r.order ≤ top) (hb : b ∈ out)
    (ho : b.order + d = top) : Inv top roots (release d f b) (out.erase b) := by
  constructor
  · intro c
    rw [← h.cover_eq c, cover_append, cover_append, cover_release ho,
      cover_perm (perm_cons_erase hb), cover_cons b, cover_cons b, cover_nil]
    omega
  · exact fun r hr => (h.separated r hr).release (hroots r hr) ho

theorem Inv.blocks_eq (h : Inv top roots f []) (hroots : roots.length ≤ 1) :
    blocks top f = roots := by
  have hcover := h.cover_eq
  rw [append_nil] at hcover
  match roots, hroots with
  | [], _ => exact eq_nil_of_cover hcover
  | [r], _ =>
    refine eq_singleton_of_cover hcover fun b hb ho hbuddy => ?_
    rw [mem_blocks_iff] at hb hbuddy
    exact h.separated r (mem_singleton_self r) b ho hb.2 hbuddy.2

theorem Inv.joined {r : Block} (h : Inv top [r] f out) : Joined r.order (blocks top f) := by
  intro b hb
  constructor
  · refine Block.order_le_of_covers fun c hc => ?_
    have hpos : 0 < cover (blocks top f ++ out) c :=
      cover_pos_iff.mpr ⟨b, mem_append_left _ hb, hc⟩
    rw [h.cover_eq] at hpos
    simpa using cover_pos_iff.mp hpos
  · intro ho hbuddy
    rw [mem_blocks_iff] at hb hbuddy
    exact h.separated r (mem_singleton_self r) b ho hb.2 hbuddy.2

/-- The cells that are taken determine the free blocks. -/
theorem Inv.blocks_perm {f' : Free} {out' : List Block} (h : Inv top roots f out)
    (h' : Inv top roots f' out') (hroots : roots.length ≤ 1)
    (hout : ∀ c, cover out c = cover out' c) : (blocks top f).Perm (blocks top f') := by
  have heq : ∀ c, cover (blocks top f) c = cover (blocks top f') c := by
    intro c
    have hc := (h.cover_eq c).trans (h'.cover_eq c).symm
    rw [cover_append, cover_append, hout c] at hc
    exact Nat.add_right_cancel hc
  have hle : ∀ c, cover (blocks top f) c ≤ cover roots c := by
    intro c
    rw [← h.cover_eq c, cover_append]
    exact Nat.le_add_right _ _
  match roots, hroots with
  | [], _ =>
    have hnil : ∀ c, cover (blocks top f) c = cover [] c := fun c => Nat.le_zero.mp (hle c)
    rw [eq_nil_of_cover hnil, eq_nil_of_cover fun c => (heq c).symm.trans (hnil c)]
  | [r], _ =>
    exact perm_of_cover_eq heq (fun c => (hle c).trans (cover_singleton_le r c)) h.joined h'.joined

end Aevros.Arena
