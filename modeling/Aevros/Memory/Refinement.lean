import Aevros.Memory.Layout

/-! # The linked lists stand for lists of blocks

`Rep m f` says that the linked list of each order visits the blocks that `f` has of that order.
Every call then does on the lists what the allocator on lists of blocks does.
-/

namespace Aevros.Memory

open List Dyadic Arena Function

variable {m : Buddy} {f : Free} {roots : List Block} {b b' : Block} {o i : ℕ} {l : List ℕ}

/-- The block lies in the region of the allocator, and not at the null address. -/
structure Placed (m : Buddy) (b : Block) : Prop where
  start_le : m.start.toNat ≤ 4096 * b.first
  le_stop : 4096 * (b.first + 2 ^ b.order) ≤ m.stop.toNat
  pos : 0 < b.first

/-- The region holds the block that was added at the beginning, if there is one. -/
structure Region (m : Buddy) (roots : List Block) : Prop where
  stop_le : m.stop.toNat ≤ 2 ^ 31
  placed : ∀ r ∈ roots, Placed m r
  order_le : ∀ r ∈ roots, r.order ≤ maxOrder
  length_le : roots.length ≤ 1

theorem Region.cover_le (h : Region m roots) (c : ℕ) : cover roots c ≤ 1 :=
  countP_le_length.trans h.length_le

theorem Region.of_cover (h : Region m roots) (hb : ∀ c, cover [b] c ≤ cover roots c) :
    Placed m b ∧ b.order ≤ maxOrder := by
  have hcov : ∀ c, b.Covers c → ∃ r ∈ roots, r.Covers c := by
    intro c hc
    apply cover_pos_iff.mp
    refine lt_of_lt_of_le ?_ (hb c)
    exact cover_pos_iff.mpr ⟨b, mem_singleton_self b, hc⟩
  obtain ⟨r, hr, -⟩ := hcov _ b.covers_first
  have hall : ∀ c, b.Covers c → r.Covers c := by
    intro c hc
    obtain ⟨r', hr', hc'⟩ := hcov c hc
    obtain ⟨x, rfl⟩ := length_eq_one_iff.mp (le_antisymm h.length_le (length_pos_of_mem hr))
    rwa [mem_singleton.mp hr, ← mem_singleton.mp hr']
  have hpos := Nat.two_pow_pos b.order
  have h₁ := Block.covers_iff.mp (hall _ b.covers_first)
  have h₂ := Block.covers_iff.mp (hall (b.first + 2 ^ b.order - 1)
    (Block.covers_iff.mpr (by omega)))
  have hp := h.placed r hr
  have hs := hp.start_le
  have he := hp.le_stop
  have h0 := hp.pos
  exact ⟨⟨by omega, by omega, by omega⟩, (Block.order_le_of_covers hall).trans (h.order_le r hr)⟩

theorem Placed.lt (h : Placed m b) (hs : m.stop.toNat ≤ 2 ^ 31) : 4096 * b.first < 2 ^ 31 := by
  have := h.le_stop
  have := Nat.two_pow_pos b.order
  omega

theorem Placed.toNat_address (h : Placed m b) (hs : m.stop.toNat ≤ 2 ^ 31) :
    (address b).toNat = 4096 * b.first :=
  Memory.toNat_address ((h.lt hs).trans (by norm_num))

theorem Placed.address_ne_zero (h : Placed m b) (hs : m.stop.toNat ≤ 2 ^ 31) : address b ≠ 0 := by
  intro h0
  have hn := h.toNat_address hs
  have hpos := h.pos
  rw [h0] at hn
  change 0 = _ at hn
  omega

theorem Placed.inRange (h : Placed m b) (hs : m.stop.toNat ≤ 2 ^ 31) :
    m.inRange (address b) = true := by
  have hn := h.toNat_address hs
  have hle := h.start_le
  have hlt := h.le_stop
  have := Nat.two_pow_pos b.order
  simp only [Buddy.inRange, Bool.and_eq_true, decide_eq_true_eq, BitVec.le_def, BitVec.lt_def]
  omega

theorem buddyValidOrder_natCast : buddyValidOrder (o : ℤ) = true ↔ o ≤ maxOrder := by
  simp [buddyValidOrder]

theorem addToList_eq (h : Placed m b) (hs : m.stop.toNat ≤ 2 ^ 31) (ho : b.order ≤ maxOrder) :
    addToList m (address b) b.order = { m with
        next := update m.next (address b) (m.freeLists b.order)
        freeLists := update m.freeLists b.order (address b) } := by
  have hvalid := buddyValidOrder_natCast.mpr ho
  rw [addToList, if_neg (not_or.mpr ⟨h.address_ne_zero hs, not_not.mpr hvalid⟩),
    if_neg (not_not.mpr (h.inRange hs))]

/-- The linked list of each order visits the blocks of that order. -/
def Rep (m : Buddy) (f : Free) : Prop :=
  ∀ o ≤ maxOrder, Chain.IsChain 0 m.next (m.freeLists o) ((f o).map fun i => address ⟨o, i⟩)

section

variable (h : Rep m f)

include h

theorem Rep.eq_zero_iff (ho : o ≤ maxOrder) : m.freeLists o = 0 ↔ f o = [] := by
  have hc := h o ho
  cases hf : f o with
  | nil => rw [hf] at hc; exact iff_of_true hc rfl
  | cons i l =>
    rw [hf] at hc
    exact iff_of_false (hc.1 ▸ hc.2.1) (cons_ne_nil i l)

theorem Rep.head_eq (ho : o ≤ maxOrder) (hf : f o = i :: l) : m.freeLists o = address ⟨o, i⟩ := by
  have hc := h o ho
  rw [hf] at hc
  exact hc.1

theorem Rep.write {x : Word} (hx : ∀ b ∈ blocks maxOrder f, address b ≠ x) (v : Word) :
    Rep { m with next := update m.next x v } f := by
  intro o ho
  refine (h o ho).write ?_ v
  rw [mem_map]
  rintro ⟨i, hi, he⟩
  exact hx ⟨o, i⟩ (mem_blocks_iff.mpr ⟨ho, hi⟩) he

theorem Rep.pop (ho : o ≤ maxOrder) (hf : f o = i :: l) :
    Rep { m with freeLists := update m.freeLists o (m.next (m.freeLists o)) } (update f o l) := by
  intro k hk
  by_cases hko : k = o
  · subst hko
    have hc := h k hk
    rw [hf] at hc
    rw [update_self]
    show Chain.IsChain 0 m.next (update m.freeLists k _ k) _
    rw [update_self, hc.1]
    exact hc.2.2
  · rw [update_of_ne hko]
    show Chain.IsChain 0 m.next (update m.freeLists o _ k) _
    rw [update_of_ne hko]
    exact h k hk

end

/-- The free blocks cover cells of the added block, none twice. -/
def Within (roots : List Block) (f : Free) : Prop :=
  ∀ c, cover (blocks maxOrder f) c ≤ cover roots c

theorem Within.placed (hw : Within roots f) (hr : Region m roots) (hb : b ∈ blocks maxOrder f) :
    Placed m b := by
  refine (hr.of_cover fun c => le_trans ?_ (hw c)).1
  rw [cover_perm (perm_cons_erase hb), cover_cons, cover_cons, cover_nil]
  omega

theorem Within.address_inj (hw : Within roots f) (hr : Region m roots)
    (hb : b ∈ blocks maxOrder f) (hb' : b' ∈ blocks maxOrder f) (he : address b = address b') :
    b = b' := by
  have h₁ := (hw.placed hr hb).lt hr.stop_le
  have h₂ := (hw.placed hr hb').lt hr.stop_le
  have hfirst := first_eq_of_address_eq (by omega) (by omega) he
  exact eq_of_cover_le (fun c => (hw c).trans (hr.cover_le c)) hb hb' b.covers_first
    (hfirst ▸ b'.covers_first)

/-- `b` may join the free blocks: together they cover cells of the added block, none twice. -/
def Joins (roots : List Block) (f : Free) (b : Block) : Prop :=
  ∀ c, cover (blocks maxOrder f) c + cover [b] c ≤ cover roots c

section

variable (hj : Joins roots f b)

include hj

theorem Joins.within : Within roots f :=
  fun c => (Nat.le_add_right _ _).trans (hj c)

section

variable (hr : Region m roots)

include hr

theorem Joins.placed : Placed m b ∧ b.order ≤ maxOrder :=
  hr.of_cover fun c => (Nat.le_add_left _ _).trans (hj c)

theorem Joins.not_covers (hb' : b' ∈ blocks maxOrder f) : ¬ b.Covers b'.first := by
  intro hc
  have hfree : 0 < cover (blocks maxOrder f) b'.first :=
    cover_pos_iff.mpr ⟨b', hb', b'.covers_first⟩
  have hb : 0 < cover [b] b'.first :=
    cover_pos_iff.mpr ⟨b, mem_singleton_self b, hc⟩
  have := hj b'.first
  have := hr.cover_le b'.first
  omega

theorem Joins.address_ne (hb' : b' ∈ blocks maxOrder f) : address b' ≠ address b := by
  intro he
  apply hj.not_covers hr hb'
  have h₁ := (hj.within.placed hr hb').lt hr.stop_le
  have h₂ := (hj.placed hr).1.lt hr.stop_le
  rw [first_eq_of_address_eq (by omega) (by omega) he]
  exact b.covers_first

theorem Joins.notMem (ho : o ≤ maxOrder) : address b ∉ (f o).map fun i => address ⟨o, i⟩ := by
  rw [mem_map]
  rintro ⟨i, hi, he⟩
  exact hj.address_ne hr (mem_blocks_iff.mpr ⟨ho, hi⟩) he

end

end

theorem Rep.push (h : Rep m f) (hr : Region m roots) (hj : Joins roots f b) :
    Rep (addToList m (address b) b.order) (push f b) := by
  obtain ⟨hp, hb⟩ := hj.placed hr
  rw [addToList_eq hp hr.stop_le hb]
  intro o ho
  by_cases hob : o = b.order
  · rw [hob]
    simp only [Arena.push, update_self]
    exact (h b.order hb).push (hp.address_ne_zero hr.stop_le) (hj.notMem hr hb)
  · simp only [Arena.push, update_of_ne hob]
    exact (h o ho).write (hj.notMem hr ho) _

theorem Joins.upper (hj : Joins roots f ⟨o + 1, i⟩) : Joins roots f ⟨o, 2 * i + 1⟩ := by
  intro c
  have := hj c
  have := cover_halves o i c
  omega

theorem Joins.lower (hj : Joins roots f ⟨o + 1, i⟩) (ho : o ≤ maxOrder) :
    Joins roots (Arena.push f ⟨o, 2 * i + 1⟩) ⟨o, 2 * i⟩ := by
  intro c
  have := hj c
  have := cover_halves o i c
  rw [cover_push ho]
  omega

@[simp] theorem start_addToList (m : Buddy) (p : Word) (o : ℕ) :
    (addToList m p o).start = m.start := by
  unfold addToList
  split <;> [rfl; (split <;> rfl)]

@[simp] theorem stop_addToList (m : Buddy) (p : Word) (o : ℕ) :
    (addToList m p o).stop = m.stop := by
  unfold addToList
  split <;> [rfl; (split <;> rfl)]

theorem Region.congr {m' : Buddy} (h : Region m roots) (hs : m'.start = m.start)
    (he : m'.stop = m.stop) : Region m' roots where
  stop_le := he ▸ h.stop_le
  placed r hr := ⟨hs ▸ (h.placed r hr).start_le, he ▸ (h.placed r hr).le_stop, (h.placed r hr).pos⟩
  order_le := h.order_le
  length_le := h.length_le

/-- Nothing but list heads and first words of pages differs. -/
structure Kept (m m' : Buddy) : Prop where
  start : m'.start = m.start
  stop : m'.stop = m.stop
  words : ∀ q : Word, ¬ 4096 ∣ q.toNat → m'.next q = m.next q

theorem Kept.refl (m : Buddy) : Kept m m := ⟨rfl, rfl, fun _ _ => rfl⟩

theorem Kept.trans {m' m'' : Buddy} (h : Kept m m') (h' : Kept m' m'') : Kept m m'' where
  start := h'.start.trans h.start
  stop := h'.stop.trans h.stop
  words q hq := (h'.words q hq).trans (h.words q hq)

theorem Region.kept {m' : Buddy} (h : Region m roots) (hk : Kept m m') : Region m' roots :=
  h.congr hk.start hk.stop

theorem update_off_page (next : Word → Word) {p q v : Word} (hp : 4096 ∣ p.toNat)
    (hq : ¬ 4096 ∣ q.toNat) : update next p v q = next q :=
  update_of_ne (fun heq : q = p => hq (heq ▸ hp)) v next

theorem kept_addToList (m : Buddy) (b : Block) (o : ℕ) : Kept m (addToList m (address b) o) where
  start := start_addToList m _ o
  stop := stop_addToList m _ o
  words q hq := by
    unfold Aevros.addToList
    split
    · rfl
    · split
      · rfl
      · dsimp only
        exact update_off_page m.next (dvd_toNat_address b) hq

theorem removeFromList_head (ho : o ≤ maxOrder) (hne : m.freeLists o ≠ 0) :
    removeFromList m (m.freeLists o) o =
      some { m with freeLists := update m.freeLists o (m.next (m.freeLists o)) } := by
  have hvalid := buddyValidOrder_natCast.mpr ho
  rw [removeFromList, if_neg (not_or.mpr ⟨hne, not_not.mpr hvalid⟩)]
  rw [if_neg hne, if_pos rfl]

theorem Within.take (hw : Within roots f) (ho : o ≤ maxOrder) (hf : (f o).Perm (i :: l)) :
    Joins roots (update f o l) ⟨o, i⟩ := by
  intro c
  have := hw c
  have := cover_take ho hf c
  omega

theorem allocOrder_of_larger {d : ℕ} (h0 : m.freeLists o = 0)
    (hd : ((range (maxOrder - o)).find? fun d => m.freeLists (o + d + 1) ≠ 0) = some d) :
    allocOrder m o = some (m.freeLists (o + d + 1), splitBlock (m.freeLists (o + d + 1)) o (d + 1)
        { m with freeLists := update m.freeLists (o + d + 1)
                  (m.next (m.freeLists (o + d + 1))) }) := by
  have hlt : d < maxOrder - o := mem_range.mp (mem_of_find?_eq_some hd)
  have hne : m.freeLists (o + d + 1) ≠ 0 := by simpa using find?_some hd
  rw [allocOrder, if_neg (not_not.mpr h0), hd]
  dsimp only
  rw [removeFromList_head (by omega) hne]
  rfl

theorem Joins.parent (hj : Joins roots f b) (hmem : b.buddy.index ∈ f b.order)
    (ho : b.order ≤ maxOrder) :
    Joins roots (update f b.order ((f b.order).erase b.buddy.index)) b.parent := by
  intro c
  have hsum := hj c
  have htake : cover (blocks maxOrder f) c = cover (blocks maxOrder
      (update f b.order ((f b.order).erase b.buddy.index))) c + cover [b.buddy] c :=
    cover_take ho (perm_cons_erase hmem) c
  have hpair : cover [b, b.buddy] c = cover [b] c + cover [b.buddy] c :=
    cover_append [b] [b.buddy] c
  rw [cover_parent]
  omega

theorem Placed.eq_buddy (hp : Placed m b) (hp' : Placed m b') (hs : m.stop.toNat ≤ 2 ^ 31)
    (ho : b'.order = b.order) (he : address b' = address b.buddy) : b' = b.buddy := by
  have h₁ := hp'.lt hs
  have h₂ : 4096 * b.buddy.first < 2 ^ 32 := by
    have hle : b.index ^^^ 1 ≤ b.index + 1 := by
      have := Block.xor_one_div_two b.index
      omega
    have hfirst : b.buddy.first ≤ b.first + 2 ^ b.order :=
      (Nat.mul_le_mul_right _ hle).trans_eq (Nat.succ_mul _ _)
    have := hp.le_stop
    omega
  have hfirst := first_eq_of_address_eq (by omega) h₂ he
  exact Block.eq_of_covers ho (Block.covers_first _) (hfirst ▸ b.buddy.covers_first)

theorem Joins.address_buddy_mem_iff (hj : Joins roots f b) (hr : Region m roots) :
    address b.buddy ∈ ((f b.order).map fun i => address ⟨b.order, i⟩) ↔
      b.buddy.index ∈ f b.order := by
  obtain ⟨hp, ho⟩ := hj.placed hr
  constructor
  · intro hmem
    obtain ⟨i, hi, he⟩ := mem_map.mp hmem
    have hp' := hj.within.placed hr (b := ⟨b.order, i⟩) (mem_blocks_iff.mpr ⟨ho, hi⟩)
    rw [← hp.eq_buddy hp' hr.stop_le rfl he]
    exact hi
  · exact fun hmem => mem_map.mpr ⟨_, hmem, rfl⟩

theorem kept_unlinkBlock (m : Buddy) (l : List ℕ) (p : Word) (o : ℕ) :
    Kept m (unlinkBlock m (l.map fun i => address ⟨o, i⟩).getLast? p o) := by
  rcases eq_nil_or_concat l with rfl | ⟨l₀, j, rfl⟩
  · exact ⟨rfl, rfl, fun _ _ => rfl⟩
  · rw [concat_eq_append, map_append, map_singleton, getLast?_concat]
    refine ⟨rfl, rfl, fun q hq => ?_⟩
    dsimp only [unlinkBlock]
    exact update_off_page m.next (dvd_toNat_address _) hq

section

variable (h : Rep m f)

include h

section

variable (hr : Region m roots)

include hr

theorem Rep.splitBlock {d : ℕ} (hj : Joins roots f ⟨o + d, i⟩) (ho : o + d ≤ maxOrder) :
    Rep (splitBlock (address ⟨o + d, i⟩) o d m) (split o d f i).2 ∧
      Kept m (splitBlock (address ⟨o + d, i⟩) o d m) ∧
      address ⟨o, (split o d f i).1⟩ = address ⟨o + d, i⟩ ∧
      Joins roots (split o d f i).2 ⟨o, (split o d f i).1⟩ := by
  induction d generalizing m f i with
  | zero => exact ⟨h, .refl m, rfl, hj⟩
  | succ d ih =>
    have hup : address ⟨o + (d + 1), i⟩ + blockBytes (o + d) = address ⟨o + d, 2 * i + 1⟩ :=
      address_upper (o + d) i
    have hlow : address ⟨o + (d + 1), i⟩ = address ⟨o + d, 2 * i⟩ := address_lower (o + d) i
    rw [Aevros.splitBlock, hup, hlow]
    have hd : o + d ≤ maxOrder := by omega
    have hkept := kept_addToList m ⟨o + d, 2 * i + 1⟩ (o + d)
    obtain ⟨hrep, hk, haddr, hjoin⟩ :=
      ih (h.push hr hj.upper) (hr.kept hkept) (hj.lower hd) hd
    exact ⟨hrep, hkept.trans hk, haddr, hjoin⟩

omit hr in
theorem Rep.larger_eq (ho : o ≤ maxOrder) :
    ((range (maxOrder - o)).find? fun d => m.freeLists (o + d + 1) ≠ 0) = larger maxOrder o f := by
  apply find?_congr
  intro d hd
  have := mem_range.mp hd
  exact decide_eq_decide.mpr (h.eq_zero_iff (o := o + d + 1) (by omega)).not

theorem Rep.allocOrder (hw : Within roots f) (ho : o ≤ maxOrder) :
    ∃ m', allocOrder m o = some (((alloc maxOrder f o).1.map address).getD 0, m') ∧
      Rep m' (alloc maxOrder f o).2 ∧ Kept m m' := by
  rcases alloc_cases maxOrder f o with ⟨hf, hd, he⟩ | ⟨i, l, hf, he⟩ | ⟨d, i, l, hnil, hd, hf, he⟩
  · rw [Aevros.allocOrder, if_neg (not_not.mpr ((h.eq_zero_iff ho).mpr hf)), h.larger_eq ho, hd, he]
    exact ⟨m, rfl, h, .refl m⟩
  · have hhead := h.head_eq ho hf
    rw [Aevros.allocOrder, if_pos ((h.eq_zero_iff ho).not.mpr (hf ▸ cons_ne_nil i l)), he]
    refine ⟨_, congrArg (fun p => some (p, _)) hhead, ?_, rfl, rfl, fun q hq => ?_⟩
    · refine (h.pop ho hf).write (fun b hb => ?_) 0
      rw [hhead]
      exact (hw.take ho (Perm.of_eq hf)).address_ne hr hb
    · have hpage : 4096 ∣ (m.freeLists o).toNat := by
        rw [hhead]
        exact dvd_toNat_address _
      exact update_off_page m.next hpage hq
  · have hle : o + d + 1 ≤ maxOrder := by have := (larger_spec hd).1; omega
    have hj := hw.take hle (Perm.of_eq hf)
    obtain ⟨hrep, hkept, haddr, -⟩ :=
      (h.pop hle hf).splitBlock (o := o) (d := d + 1) (hr.congr rfl rfl) hj hle
    have hhead : m.freeLists (o + d + 1) = address ⟨o + (d + 1), i⟩ := h.head_eq hle hf
    rw [← hhead] at hrep hkept haddr
    rw [allocOrder_of_larger ((h.eq_zero_iff ho).mpr hnil) ((h.larger_eq ho).trans hd), he]
    exact ⟨_, congrArg (fun p => some (p, _)) haddr.symm, hrep, hkept.start, hkept.stop,
      hkept.words⟩

theorem Rep.unlinkBlock {l₁ l₂ : List ℕ} (hw : Within roots f) (ho : o ≤ maxOrder)
    (hf : f o = l₁ ++ i :: l₂) :
    Rep (unlinkBlock m (l₁.map fun i => address ⟨o, i⟩).getLast? (address ⟨o, i⟩) o)
      (update f o (l₁ ++ l₂)) := by
  rcases eq_nil_or_concat l₁ with rfl | ⟨l₀, j, rfl⟩
  · have hpop := h.pop ho hf
    rwa [h.head_eq ho hf] at hpop
  · rw [concat_eq_append] at hf
    rw [concat_eq_append, map_append, map_singleton, getLast?_concat]
    intro k hk
    show Chain.IsChain 0 (update m.next (address ⟨o, j⟩) (m.next (address ⟨o, i⟩)))
      (m.freeLists k) _
    by_cases hko : k = o
    · subst hko
      have hc := h k hk
      simp only [hf, append_assoc, map_append] at hc
      simp only [update_self, append_assoc, map_append]
      exact hc.unlink
    · rw [update_of_ne hko]
      refine (h k hk).write ?_ _
      rw [mem_map]
      rintro ⟨i', hi', he⟩
      have hj : j ∈ f o := by simp [hf]
      have heq : (⟨k, i'⟩ : Block) = ⟨o, j⟩ := hw.address_inj hr (mem_blocks_iff.mpr ⟨hk, hi'⟩)
        (mem_blocks_iff.mpr ⟨ho, hj⟩) he
      exact hko (congrArg Block.order heq)

omit hr in
theorem Rep.length_lt (ho : o ≤ maxOrder) :
    ((f o).map fun i => address ⟨o, i⟩).length < walkBound := by
  have hnd := (h o ho).nodup.map (f := BitVec.toFin) fun x y he => BitVec.eq_of_toFin_eq he
  have hle := hnd.length_le_card
  rw [length_map, Fintype.card_fin] at hle
  exact Nat.lt_succ_of_le hle

theorem Rep.joinBuddies {d : ℕ} (hj : Joins roots f b) (hd : b.order + d = maxOrder) :
    ∃ m', joinBuddies d m (address b) b.order = some m' ∧ Rep m' (release d f b) ∧ Kept m m' := by
  induction d generalizing m f b with
  | zero => exact ⟨_, rfl, h.push hr hj, kept_addToList _ _ _⟩
  | succ d ih =>
    have ho : b.order ≤ maxOrder := by omega
    have hlen := h.length_lt ho
    rw [Aevros.joinBuddies, release, address_buddy]
    by_cases hmem : b.buddy.index ∈ f b.order
    · have hbuddy : b.buddy ∈ blocks maxOrder f := mem_blocks_iff.mpr ⟨ho, hmem⟩
      have hin := (hj.within.placed hr hbuddy).inRange hr.stop_le
      simp only [Buddy.inRange, Bool.and_eq_true, decide_eq_true_eq] at hin
      obtain ⟨l₁, l₂, hnot, hf, herase⟩ := exists_erase_eq hmem
      have hc := h b.order ho
      rw [hf, map_append] at hc hlen
      have hsearch : Chain.search 0 m.next (address b.buddy) walkBound none (m.freeLists b.order) =
          some (some (l₁.map fun i => address ⟨b.order, i⟩).getLast?) :=
        (hc.search_of_mem hlen).trans (by rw [Option.or_none])
      rw [if_neg (not_or.mpr ⟨BitVec.not_lt.mpr hin.1, BitVec.not_le.mpr hin.2⟩), hsearch,
        if_pos hmem, address_parent, herase]
      have hparent := hj.parent hmem ho
      rw [herase] at hparent
      have hkept := kept_unlinkBlock m l₁ (address b.buddy) b.order
      obtain ⟨m', hjoin, hrep, hk⟩ := ih (h.unlinkBlock hr hj.within ho hf) (hr.kept hkept) hparent
        (by simp only [Block.parent]; omega)
      exact ⟨m', hjoin, hrep, hkept.trans hk⟩
    · have hpush : ∃ m', some (addToList m (address b) b.order) = some m' ∧
          Rep m' (Arena.push f b) ∧ Kept m m' :=
        ⟨_, rfl, h.push hr hj, kept_addToList _ _ _⟩
      split
      · exact hpush
      · have hsearch : Chain.search 0 m.next (address b.buddy) walkBound none
            (m.freeLists b.order) = some none :=
          (h b.order ho).search_of_notMem hlen ((hj.address_buddy_mem_iff hr).not.mpr hmem)
        rw [hsearch]
        exact hpush

theorem Rep.buddyFree (hj : Joins roots f b) : ∃ m', buddyFree m (address b) b.order = some m' ∧
      Rep m' (release (maxOrder - b.order) f b) ∧ Kept m m' := by
  obtain ⟨hp, ho⟩ := hj.placed hr
  have hvalid := buddyValidOrder_natCast.mpr ho
  rw [Aevros.buddyFree, if_neg (not_or.mpr ⟨hp.address_ne_zero hr.stop_le, not_not.mpr hvalid⟩),
    if_neg (not_not.mpr (hp.inRange hr.stop_le)), Int.toNat_natCast,
    if_neg (not_not.mpr (address_aligned ho))]
  exact h.joinBuddies hr hj (by omega)

end

end

theorem alignUp_placed (ho : o ≤ maxOrder) (ha : m.start.toNat ≤ 2 ^ 31)
    (hfit : alignUp m.start (blockBytes o) + blockBytes o ≤ m.stop)
    (hne : alignUp m.start (blockBytes o) ≠ 0) :
    ∃ i, alignUp m.start (blockBytes o) = address ⟨o, i⟩ ∧ Placed m ⟨o, i⟩ := by
  have ho' : o ≤ 16 := ho
  have halign := alignUp_eq ho ha
  have hle : 2 ^ (o + 12) ≤ 2 ^ 28 := Nat.pow_le_pow_right (by omega) (by omega)
  have hpow : 2 ^ (o + 12) = 4096 * 2 ^ o := by rw [pow_add, Nat.mul_comm]; rfl
  generalize hi : (m.start.toNat + 2 ^ (o + 12) - 1) / 2 ^ (o + 12) = i at halign
  have hpage := first_mul_page ⟨o, i⟩
  -- the quotient rounds up
  have hdiv := Nat.div_add_mod (m.start.toNat + 2 ^ (o + 12) - 1) (2 ^ (o + 12))
  rw [hi, Nat.mul_comm] at hdiv
  have hnat : (alignUp m.start (blockBytes o)).toNat = 4096 * (⟨o, i⟩ : Block).first := by
    rw [halign]
    exact toNat_address (by rw [hpage]; dsimp only; omega)
  have hend : (alignUp m.start (blockBytes o) + blockBytes o).toNat =
      4096 * (⟨o, i⟩ : Block).first + 2 ^ (o + 12) := by
    rw [BitVec.toNat_add, hnat, toNat_blockBytes ho]
    rw [hpage]
    dsimp only
    omega
  rw [BitVec.le_def] at hfit
  refine ⟨i, halign, ?_, ?_, ?_⟩
  · rw [hpage]
    dsimp only
    omega
  · dsimp only
    omega
  · rw [Nat.pos_iff_ne_zero]
    intro h0
    apply hne
    apply BitVec.eq_of_toNat_eq
    rw [hnat, h0]
    rfl

theorem largestFit_spec (start stop : Word) (n : ℕ) (h : (largestFit start stop n).1 ≠ 0) :
    (largestFit start stop n).1 ≤ n ∧
      (largestFit start stop n).2 = alignUp start (blockBytes (largestFit start stop n).1) ∧
      (largestFit start stop n).2 + blockBytes (largestFit start stop n).1 ≤ stop := by
  induction n with
  | zero => exact absurd rfl h
  | succ n ih =>
    rw [largestFit] at h ⊢
    split at h
    · next hfit =>
      rw [if_pos hfit]
      exact ⟨le_rfl, rfl, hfit⟩
    · next hfit =>
      rw [if_neg hfit]
      obtain ⟨hle, heq, hend⟩ := ih h
      exact ⟨hle.trans (Nat.le_succ n), heq, hend⟩

variable (next : Word → Word)

def emptyBuddy (start stop : Word) : Buddy :=
  { totalMem := stop - start, start := start, stop := stop, freeLists := fun _ => 0, next := next }

theorem buddyInit_cases (start stop : Word) :
    buddyInit next start stop = emptyBuddy next start stop ∨
      ∃ o ≤ maxOrder, alignUp start (blockBytes o) + blockBytes o ≤ stop ∧
        buddyInit next start stop =
          addToList (emptyBuddy next start stop) (alignUp start (blockBytes o)) o := by
  unfold buddyInit
  dsimp only
  split
  · have halign : (start + 4095) &&& ~~~(4095 : Word) = alignUp start (blockBytes 0) := by
      have hsum : start + 4095 = start + blockBytes 0 - 1 := by
        rw [BitVec.sub_eq_add_neg, BitVec.add_assoc]
        rfl
      rw [alignUp, ← hsum]
      rfl
    rw [halign]
    split
    · exact Or.inl rfl
    · next hfit => exact Or.inr ⟨0, Nat.zero_le _, BitVec.not_lt.mp hfit, rfl⟩
  · next hne =>
    obtain ⟨hle, heq, hend⟩ := largestFit_spec start stop maxOrder hne
    exact Or.inr ⟨_, hle, heq ▸ hend, by rw [← heq]; rfl⟩

theorem blocks_nil (top : ℕ) : blocks top (fun _ => []) = [] := by
  simp [blocks]

theorem init_spec {start stop : Word} (ha : start.toNat ≤ 2 ^ 31) (hz : stop.toNat ≤ 2 ^ 31) :
    ∃ roots f, Rep (buddyInit next start stop) f ∧ Region (buddyInit next start stop) roots ∧
      blocks maxOrder f = roots ∧ Inv maxOrder roots f [] := by
  have hrep : Rep (emptyBuddy next start stop) fun _ => [] := fun _ _ => rfl
  have hempty : ∃ roots f, Rep (emptyBuddy next start stop) f ∧
      Region (emptyBuddy next start stop) roots ∧ blocks maxOrder f = roots ∧
      Inv maxOrder roots f [] := by
    refine ⟨[], fun _ => [], hrep, ⟨hz, by simp, by simp, by simp⟩,
      blocks_nil _, ?_, by simp⟩
    simp [blocks_nil]
  rcases buddyInit_cases next start stop with he | ⟨o, ho, hfit, he⟩
  · rw [he]
    exact hempty
  · by_cases hzero : alignUp start (blockBytes o) = 0
    · rw [he, addToList, if_pos (Or.inl hzero)]
      exact hempty
    · obtain ⟨i, haddr, hp⟩ :=
        alignUp_placed (m := emptyBuddy next start stop) ho ha hfit hzero
      replace haddr : alignUp start (blockBytes o) = address ⟨o, i⟩ := haddr
      have hreg : Region (emptyBuddy next start stop) [⟨o, i⟩] :=
        ⟨hz, by simpa using hp, by simpa using ho, le_rfl⟩
      have hj : Joins [⟨o, i⟩] (fun _ => []) ⟨o, i⟩ := by
        intro c
        rw [blocks_nil, cover_nil, Nat.zero_add]
      have hblocks : blocks maxOrder (Arena.push (fun _ => []) ⟨o, i⟩) = [⟨o, i⟩] := by
        apply perm_singleton.mp
        refine (blocks_push_perm ho).trans (Perm.of_eq ?_)
        rw [blocks_nil]
      rw [he, haddr]
      refine ⟨[⟨o, i⟩], _, hrep.push hreg hj,
        hreg.congr (start_addToList _ _ _) (stop_addToList _ _ _), hblocks, ?_, ?_⟩
      · intro c
        rw [hblocks, append_nil]
      · intro r _
        refine Separated.push (fun b _ hb => ?_) (fun _ => ?_)
        · cases hb
        · exact not_mem_nil

end Aevros.Memory
