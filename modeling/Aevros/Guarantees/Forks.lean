import Aevros.Paging.Rollback

/-! # Copied address spaces

`fork` copies the user part of an address space into frames of its own. If frames run out, the
rollback gives all of them back only for some places of the tables.
-/

namespace Aevros

open List Copy Machine

/-- The tables of the user are neither free nor the directory nor the table of the windows. -/
structure Machine.Orderly (m : Machine) : Prop extends m.Stocked where
  tables : ∀ i ∈ userEntries, present (m.mem m.cr3 i) = true →
    frame (m.mem m.cr3 i) ≠ m.cr3 ∧ ∀ a ∈ m.free, frame a ≠ frame (m.mem m.cr3 i)
  window_tables : present (m.mem m.cr3 windowEntry) = true →
    ∀ i ∈ userEntries, present (m.mem m.cr3 i) = true →
      frame (m.mem m.cr3 i) ≠ frame (m.mem m.cr3 windowEntry)

section

variable (m : Machine)

def framesNeeded : ℕ := 1 + (tableSlots m userEntries).length

def framesBefore (i : Fin 1024) : ℕ :=
  1 + (tableSlots m (userEntries.filter fun j => j < i)).length

/-- Up to the last entry for whose table there is a frame, all user entries are present. -/
def Contiguous : Prop :=
  ∀ i ∈ userEntries, present (m.mem m.cr3 i) = true → framesBefore m i < m.free.length →
    ∀ j ∈ userEntries, j < i → present (m.mem m.cr3 j) = true

def Recoverable : Prop :=
  if present (m.mem m.cr3 windowEntry) = true then
    framesNeeded m ≤ m.free.length ∨ Contiguous m
  else m.free.length ≤ 1 ∨ framesNeeded m < m.free.length

end

variable {m s s' : Machine} {w : ℕ} {d : Word} {g : CopySlot → Word} {L : List CopySlot}
  {i j : Fin 1024} {rest : List Word}

theorem Machine.Orderly.clear (h : m.Orderly) (hw : present (m.mem m.cr3 windowEntry) = true) :
    Clear m (frame (m.mem m.cr3 windowEntry)) :=
  ⟨h.supply hw, fun i hi hp => ⟨h.window_tables hw i hi hp, (h.tables i hi hp).2⟩⟩

theorem tableSlots_congr {m' : Machine} {is : List (Fin 1024)}
    (hd : ∀ i ∈ is, present (m'.mem m'.cr3 i) = present (m.mem m.cr3 i))
    (ht : ∀ i ∈ is, present (m.mem m.cr3 i) = true → ∀ j,
      present (m'.mem (frame (m'.mem m'.cr3 i)) j) = present (m.mem (frame (m.mem m.cr3 i)) j)) :
    tableSlots m' is = tableSlots m is := by
  induction is with
  | nil => rfl
  | cons i is ih =>
    have hi := hd i mem_cons_self
    have htail := ih (fun j hj => hd j (mem_cons_of_mem _ hj))
      fun j hj => ht j (mem_cons_of_mem _ hj)
    by_cases hp : present (m.mem m.cr3 i) = true
    · have hpages : pageSlots m' i (finRange 1024) = pageSlots m i (finRange 1024) := by
        simp only [pageSlots, ht i mem_cons_self hp]
      rw [tableSlots_cons, tableSlots_cons, if_pos (hi ▸ hp), if_pos hp, htail, hpages]
    · rw [tableSlots_cons, tableSlots_cons, if_neg (hi ▸ hp), if_neg hp, htail]

theorem userEntries_split (hi : i ∈ userEntries) :
    ∃ above, userEntries = (userEntries.filter fun j => j < i) ++ i :: above := by
  obtain ⟨as, bs, heq⟩ := append_of_mem hi
  have hsorted : userEntries.Pairwise (· < ·) := (pairwise_lt_finRange 1024).filter _
  rw [heq, pairwise_append, pairwise_cons] at hsorted
  obtain ⟨-, ⟨hbs, -⟩, hcross⟩ := hsorted
  have has : as.filter (fun j => j < i) = as := by
    rw [filter_eq_self]
    exact fun j hj => decide_eq_true (hcross j hj i mem_cons_self)
  have hbs' : (i :: bs).filter (fun j => j < i) = [] := by
    rw [filter_eq_nil_iff]
    intro j hj
    rcases mem_cons.mp hj with rfl | hj
    · simp
    · simpa using (hbs j hj).le
  refine ⟨bs, ?_⟩
  rw [heq, filter_append, has, hbs', append_nil]

theorem table_mem_take_iff {n : ℕ} (hi : i ∈ userEntries) :
    .table i ∈ (tableSlots m userEntries).take n ↔ present (m.mem m.cr3 i) = true ∧
        (tableSlots m (userEntries.filter fun j => j < i)).length < n := by
  by_cases hp : present (m.mem m.cr3 i) = true
  · obtain ⟨above, hsplit⟩ := userEntries_split hi
    have hbelow : .table i ∉ tableSlots m (userEntries.filter fun j => j < i) := by
      rw [table_mem_tableSlots]
      simp
    generalize userEntries.filter (fun j => j < i) = below at hsplit hbelow ⊢
    rw [hsplit, tableSlots, flatMap_append, ← tableSlots, ← tableSlots, tableSlots_cons, if_pos hp,
      cons_append, take_append, mem_append]
    by_cases hlt : (tableSlots m below).length < n
    · obtain ⟨k, hk⟩ : ∃ k, n - (tableSlots m below).length = k + 1 :=
        ⟨_, (Nat.succ_pred (by omega)).symm⟩
      rw [hk]
      exact iff_of_true (.inr mem_cons_self) ⟨hp, hlt⟩
    · rw [Nat.sub_eq_zero_of_le (by omega)]
      refine iff_of_false ?_ fun h => hlt h.2
      rintro (h | h)
      · exact hbelow (mem_of_mem_take h)
      · cases h
  · refine iff_of_false (fun h => hp ?_) fun h => hp h.1
    exact (table_mem_tableSlots.mp (mem_of_mem_take h)).2

def tableNumbers (L : List CopySlot) : Finset ℕ :=
  (Finset.univ.filter fun i => CopySlot.table i ∈ L).image Fin.val

theorem mem_tableNumbers {n : ℕ} :
    n ∈ tableNumbers L ↔ ∃ i : Fin 1024, .table i ∈ L ∧ i.val = n := by
  simp [tableNumbers]

theorem card_tableNumbers (hL : L.Nodup) : (tableNumbers L).card = tableCount L := by
  have himage : (Finset.univ.filter fun i => CopySlot.table i ∈ L).image CopySlot.table =
      (L.filter CopySlot.isTable).toFinset := by
    ext k
    cases k with
    | table i => simp [CopySlot.isTable, -toFinset_filter]
    | page i j => simp [CopySlot.isTable, -toFinset_filter]
  rw [tableNumbers, Finset.card_image_of_injective _ Fin.val_injective,
    ← Finset.card_image_of_injective _ fun i j h => CopySlot.table.inj h, himage,
    toFinset_card_of_nodup (hL.filter _), tableCount, countP_eq_length_filter]

theorem framesBefore_mono (hji : j < i) : framesBefore m j ≤ framesBefore m i := by
  have hsub : (userEntries.filter fun k => k < j).Sublist (userEntries.filter fun k => k < i) := by
    refine monotone_filter_right _ fun k hk => ?_
    simp only [decide_eq_true_eq] at hk ⊢
    exact hk.trans hji
  exact Nat.add_le_add_left (hsub.flatMap _).length_le 1

theorem forall_lt_iff_contiguous {n : ℕ} (hn : m.free.length = n + 1) :
    (∀ i, .table i ∈ (tableSlots m userEntries).take n →
      i.val < 10 + tableCount ((tableSlots m userEntries).take n)) ↔ Contiguous m := by
  generalize hL : (tableSlots m userEntries).take n = L
  have hbegun : ∀ i, .table i ∈ L ↔ i ∈ userEntries ∧ present (m.mem m.cr3 i) = true ∧
      framesBefore m i < m.free.length := by
    intro i
    rw [← hL, hn, framesBefore, Nat.add_comm, Nat.add_lt_add_iff_right]
    constructor
    · intro hi
      have hmem := (table_mem_tableSlots.mp (mem_of_mem_take hi)).1
      exact ⟨hmem, (table_mem_take_iff hmem).mp hi⟩
    · rintro ⟨hmem, hi⟩
      exact (table_mem_take_iff hmem).mpr hi
  have hcard := card_tableNumbers (L := L)
    (hL ▸ (nodup_tableSlots nodup_userEntries).sublist (take_sublist _ _))
  constructor
  · intro hlt i hi hp hframes j hj hji
    -- as many tables as the range has entries, so all of them
    have hsub : tableNumbers L ⊆ Finset.Ico 10 (10 + tableCount L) := by
      intro n hn
      obtain ⟨i, hi, rfl⟩ := mem_tableNumbers.mp hn
      exact Finset.mem_Ico.mpr ⟨(mem_userEntries.mp ((hbegun i).mp hi).1).1, hlt i hi⟩
    have heq := Finset.eq_of_subset_of_card_le hsub (by rw [Nat.card_Ico]; omega)
    have hi' := hlt i ((hbegun i).mpr ⟨hi, hp, hframes⟩)
    have hj' : j.val ∈ tableNumbers L := by
      rw [heq]
      exact Finset.mem_Ico.mpr ⟨(mem_userEntries.mp hj).1, lt_trans hji hi'⟩
    obtain ⟨k, hk, hkj⟩ := mem_tableNumbers.mp hj'
    obtain rfl := Fin.ext hkj
    exact ((hbegun k).mp hk).2.1
  · intro hcont i hi
    obtain ⟨hmem, hp, hframes⟩ := (hbegun i).mp hi
    have hrange := mem_userEntries.mp hmem
    have hsub : Finset.Icc 10 i.val ⊆ tableNumbers L := by
      intro n hn
      obtain ⟨hge, hle⟩ := Finset.mem_Icc.mp hn
      refine mem_tableNumbers.mpr ⟨⟨n, by omega⟩, (hbegun _).mpr ?_, rfl⟩
      have huser : (⟨n, by omega⟩ : Fin 1024) ∈ userEntries :=
        mem_userEntries.mpr ⟨hge, by dsimp only; omega⟩
      rcases hle.lt_or_eq with hlt | rfl
      · exact ⟨huser, hcont i hmem hp hframes _ huser hlt, (framesBefore_mono hlt).trans_lt hframes⟩
      · exact ⟨hmem, hp, hframes⟩
    have := Finset.card_le_card hsub
    rw [Nat.card_Icc] at this
    omega

theorem returned_iff (hm : Clear m w) (h : Built m w d g L s) (hL : ∀ i, .table i ∈ L → 10 ≤ i.val)
    {b : ℕ} (hroll : cloneRollback s d b = some s') :
    (∀ a, a ∈ s'.free ↔ a ∈ m.free) ↔ ∀ i, .table i ∈ L → i.val < 10 + b := by
  obtain ⟨s'', hroll', hfree⟩ := h.cloneRollback hm b
  cases hroll.symm.trans hroll'
  have hmem : ∀ a, a ∈ m.free ↔ a = d ∨ (∃ k ∈ L, a = g k) ∨ a ∈ s.free := by
    rw [h.frames]
    simp [eq_comm]
  constructor
  · intro hall i hi
    obtain hs | hd | ⟨i', hrange, hi', heq⟩ := (hfree _).mp ((hall _).mpr (h.slot_mem hi))
    · exact absurd rfl ((h.fresh hm hs).2 _ hi)
    · exact absurd (congrArg frame hd) (h.slot_ne_directory hm hi)
    · rcases heq with heq | ⟨j, hj, heq⟩
      · obtain rfl := CopySlot.table.inj (h.slot_inj hm hi hi' (congrArg frame heq))
        exact hrange.2
      · cases h.slot_inj hm hi hj (congrArg frame heq)
  · intro hlt a
    rw [hfree, hmem]
    constructor
    · rintro (hs | hd | ⟨i, -, hi, rfl | ⟨j, hj, rfl⟩⟩)
      · exact .inr (.inr hs)
      · exact .inl hd
      · exact .inr (.inl ⟨_, hi, rfl⟩)
      · exact .inr (.inl ⟨_, hj, rfl⟩)
    · rintro (hd | ⟨k, hk, rfl⟩ | hs)
      · exact .inr (.inl hd)
      · cases k with
        | table i => exact .inr (.inr ⟨i, ⟨hL i hk, hlt i hk⟩, hk, .inl rfl⟩)
        | page i j =>
          have hi := h.table_mem i j hk
          exact .inr (.inr ⟨i, ⟨hL i hi, hlt i hi⟩, hi, .inr ⟨j, hk, rfl⟩⟩)
      · exact .inl hs

def ReturnsFrames (m : Machine) : Prop :=
  ∀ s', clonePageDirectory m = some (0, s') → ∀ a, a ∈ s'.free ↔ a ∈ m.free

theorem clone_of_nil (h : m.free = []) : clonePageDirectory m = some (0, m) := by
  rw [clonePageDirectory, pmmAlloc_nil h]
  rfl

theorem returnsFrames_iff_of_clear (hm : Clear m w) :
    ReturnsFrames m ↔ framesNeeded m ≤ m.free.length ∨ Contiguous m := by
  cases hfree : m.free with
  | nil =>
    refine iff_of_true (fun s' hs' a => ?_) (.inr fun i _ _ hlt => ?_)
    · rw [clone_of_nil hfree] at hs'
      cases hs'
      exact Iff.rfl
    · rw [hfree] at hlt
      exact absurd hlt (Nat.not_lt_zero _)
  | cons d rest =>
    have hd0 : d ≠ 0 := hm.ne_zero d (mem_free hfree)
    have hlen : m.free.length = rest.length + 1 := by rw [hfree]; rfl
    rw [framesNeeded, length_cons, Nat.add_comm 1, Nat.add_le_add_iff_right]
    obtain ⟨g, s, s', ⟨hle, hb, hcall, -⟩ | ⟨hlt, hb, hroll, hcall⟩⟩ := clone_cases hm hfree
    · refine iff_of_true (fun s'' hs'' => ?_) (.inl hle)
      rw [hcall] at hs''
      exact absurd (congrArg Prod.fst (Option.some.inj hs'')) hd0
    · have hL : ∀ i, .table i ∈ (tableSlots m userEntries).take rest.length → 10 ≤ i.val :=
        fun i hi => (mem_userEntries.mp (table_mem_tableSlots.mp (mem_of_mem_take hi)).1).1
      rw [or_iff_right (by omega), ← forall_lt_iff_contiguous hlen, ← returned_iff hm hb hL hroll]
      constructor
      · exact fun h => h s' hcall
      · intro h s'' hs''
        rw [hcall] at hs''
        cases hs''
        exact h

section Absent

variable {t : Word}

variable (h : m.Orderly) (habsent : present (m.mem m.cr3 windowEntry) = false)
  (hfree : m.free = d :: t :: rest)

include h hfree

theorem mem_install_user (hi : i ∈ userEntries) :
    (m.install t (d :: rest)).mem m.cr3 i = m.mem m.cr3 i :=
  mem_install_cr3 (h.ne_cr3 t (window_mem hfree)) (ne_windowEntry hi)

theorem clear_install : Clear (m.install t (d :: rest)) (frame t) := by
  refine ⟨h.supply_install hfree, fun i hi hp => ?_⟩
  rw [cr3_install, mem_install_user h hfree hi] at hp ⊢
  exact ⟨((h.tables i hi hp).2 t (window_mem hfree)).symm,
    fun a ha => (h.tables i hi hp).2 a (mem_rest hfree ha)⟩

include habsent in
theorem clone_eq_install : clonePageDirectory m = clonePageDirectory (m.install t (d :: rest)) := by
  have hd0 : d ≠ 0 := h.ne_zero d (mem_free hfree)
  rw [clonePageDirectory, clonePageDirectory, pmmAlloc_cons hfree,
    pmmAlloc_cons (free_install t (d :: rest))]
  dsimp only
  rw [if_neg hd0, if_neg hd0, h.mapPage_window hfree habsent]
  rfl

theorem framesNeeded_install : framesNeeded (m.install t (d :: rest)) = framesNeeded m := by
  have ht := window_mem hfree
  rw [framesNeeded, framesNeeded, tableSlots_congr]
  · intro i hi
    rw [cr3_install, mem_install_user h hfree hi]
  · intro i hi hp j
    obtain ⟨hne, hfree'⟩ := h.tables i hi hp
    rw [cr3_install, mem_install_user h hfree hi, mem_install_of_ne (hfree' t ht).symm hne]

end Absent

theorem clone_of_singleton (h : m.Orderly)
    (habsent : present (m.mem m.cr3 windowEntry) = false) (hfree : m.free = [d]) :
    clonePageDirectory m = none := by
  obtain ⟨hmap, hset⟩ := h.window_absent (d := d) habsent
  rw [clonePageDirectory, pmmAlloc_cons hfree]
  dsimp only
  rw [if_neg (h.ne_zero d (mem_free hfree)), hmap, Option.bind_eq_bind, Option.bind_some, hset]
  rfl

theorem returnsFrames_iff_of_absent (h : m.Orderly)
    (habsent : present (m.mem m.cr3 windowEntry) = false) :
    ReturnsFrames m ↔ m.free.length ≤ 1 ∨ framesNeeded m < m.free.length := by
  match hfree : m.free with
  | [] =>
    refine iff_of_true (fun s' hs' a => ?_) (.inl (Nat.zero_le 1))
    rw [clone_of_nil hfree] at hs'
    cases hs'
    exact Iff.rfl
  | [d] =>
    refine iff_of_true (fun s' hs' => ?_) (.inl le_rfl)
    rw [clone_of_singleton h habsent hfree] at hs'
    cases hs'
  | d :: t :: rest =>
    have hm := clear_install h hfree
    have hd0 : d ≠ 0 := hm.ne_zero d mem_cons_self
    rw [← framesNeeded_install h hfree, framesNeeded]
    simp only [length_cons]
    obtain ⟨g, s, s', ⟨hle, -, hcall, -⟩ | ⟨hlt, hb, hroll, hcall⟩⟩ :=
      clone_cases hm (free_install t (d :: rest))
    · refine iff_of_true (fun s'' hs'' => ?_) (.inr (by omega))
      rw [clone_eq_install h habsent hfree, hcall] at hs''
      exact absurd (congrArg Prod.fst (Option.some.inj hs'')) hd0
    · refine iff_of_false (fun hall => ?_) (by omega)
      rw [← clone_eq_install h habsent hfree] at hcall
      obtain ⟨s'', hroll', hback⟩ := hb.cloneRollback hm
        (tableCount ((tableSlots (m.install t (d :: rest)) userEntries).take rest.length))
      cases hroll.symm.trans hroll'
      refine h.window_not_mem hfree ?_
      obtain hs | rfl | ⟨i, -, hi, rfl | ⟨j, hj, rfl⟩⟩ :=
        (hback t).mp ((hall s' hcall t).mpr (window_mem hfree))
      · exact hb.free_mem hs
      · exact mem_cons_self
      · exact hb.slot_mem hi
      · exact hb.slot_mem hj

/-- A copy that gives up leaves all frames free exactly where the rollback can find them. -/
theorem returnsFrames_iff_recoverable (h : m.Orderly) : ReturnsFrames m ↔ Recoverable m := by
  unfold Recoverable
  split
  case isTrue hw => exact returnsFrames_iff_of_clear (h.clear hw)
  case isFalse hw => exact returnsFrames_iff_of_absent h (Bool.eq_false_of_not_eq_true hw)

def programEntry : Fin 1024 := ⟨256, by decide⟩

def loneDirectory (i : Fin 1024) : Word :=
  if i = selfEntry then 0x1003 else if i = windowEntry then 0x2003
  else if i = programEntry then 0x3007 else 0

def loneMemory (f : ℕ) : Page :=
  if f = 1 then loneDirectory
  else if f = 3 then fun j => if j.val = 0 then 0x4007 else 0
  else fun _ => 0

section

variable (free : List Word)

def loneProgram : Machine where
  mem := loneMemory
  cr3 := 1
  free := free

theorem loneDirectory_user (hi : i ∈ userEntries) (hp : present (loneDirectory i) = true) :
    i = programEntry := by
  by_contra hne
  rw [loneDirectory, if_neg (ne_selfEntry hi), if_neg (ne_windowEntry hi), if_neg hne] at hp
  cases hp

theorem directory_loneProgram : (loneProgram free).mem (loneProgram free).cr3 = loneDirectory := rfl

theorem loneProgram_window :
    present ((loneProgram free).mem (loneProgram free).cr3 windowEntry) = true := by
  rw [directory_loneProgram]
  decide +kernel

theorem tableSlots_loneProgram : tableSlots (loneProgram free) userEntries =
    [.table programEntry, .page programEntry ⟨0, by decide⟩] := by
  -- the free frames do not matter
  change tableSlots (loneProgram []) userEntries = _
  decide +kernel

end

theorem loneProgram_orderly {free : List Word} (hnodup : free.Nodup)
    (hlen : free.length ≤ maxFrames) (hfree : ∀ a ∈ free, 4096 ∣ a.toNat ∧ 3 < frame a) :
    (loneProgram free).Orderly where
  recursive := by
    constructor
    · rw [directory_loneProgram]
      decide +kernel
    · rw [directory_loneProgram]
      change _ = 1
      decide +kernel
  nodup := hnodup
  length_le := hlen
  ne_zero a ha := by
    rintro rfl
    exact absurd (hfree 0 ha).2 (by decide)
  aligned a ha := (hfree a ha).1
  ne_cr3 a ha := ((by decide : 1 < 3).trans (hfree a ha).2).ne'
  tables i hi hp := by
    rw [directory_loneProgram] at hp ⊢
    obtain rfl := loneDirectory_user hi hp
    exact ⟨(by decide : 3 ≠ 1), fun a ha => (hfree a ha).2.ne'⟩
  window _ := by
    rw [directory_loneProgram]
    exact ⟨(by decide : 2 ≠ 1), fun a ha => ((by decide : 2 < 3).trans (hfree a ha).2).ne'⟩
  window_tables _ i hi hp := by
    rw [directory_loneProgram] at hp ⊢
    obtain rfl := loneDirectory_user hi hp
    decide +kernel

theorem loneProgram_returns : ReturnsFrames (loneProgram [0x5000]) := by
  have horderly : (loneProgram [0x5000]).Orderly :=
    loneProgram_orderly (nodup_singleton _) (by decide) (by simp [frame])
  refine (returnsFrames_iff_recoverable horderly).mpr ?_
  refine .inr fun i _ _ hlt => ?_
  have hone : framesBefore (loneProgram [0x5000]) i < 1 := hlt
  rw [framesBefore] at hone
  omega

theorem loneProgram_loses : (loneProgram [0x5000, 0x6000]).Orderly ∧
    ¬ ReturnsFrames (loneProgram [0x5000, 0x6000]) := by
  have horderly : (loneProgram [0x5000, 0x6000]).Orderly :=
    loneProgram_orderly (by decide) (by decide) (by simp [frame])
  refine ⟨horderly, ?_⟩
  rw [returnsFrames_iff_of_clear (horderly.clear (loneProgram_window _))]
  rintro (hle | hcont)
  · rw [framesNeeded, tableSlots_loneProgram] at hle
    exact absurd hle (by decide)
  · have hbefore : framesBefore (loneProgram [0x5000, 0x6000]) programEntry < 2 := by
      decide +kernel
    have hten : (⟨10, by decide⟩ : Fin 1024) ∈ userEntries := mem_userEntries.mpr (by decide)
    have hp := hcont programEntry (by decide +kernel) (by decide +kernel) hbefore _ hten (by decide)
    exact absurd (loneDirectory_user hten hp) (by decide)

def slotFrame (s : Machine) : CopySlot → ℕ
  | .table i => frame (s.mem s.cr3 i)
  | .page i j => source s i j

def spaceFrames (s : Machine) : List ℕ := s.cr3 :: (tableSlots s userEntries).map (slotFrame s)

/-- The frames in use, among them those of the current space and of the windows, are not free. -/
structure Machine.Owned (m : Machine) (owned : Set ℕ) : Prop where
  free : ∀ a ∈ m.free, frame a ∉ owned
  space : ∀ f ∈ spaceFrames m, f ∈ owned
  window : frame (m.mem m.cr3 windowEntry) ∈ owned
  window_ne : ∀ f ∈ spaceFrames m, f ≠ frame (m.mem m.cr3 windowEntry)

/-- What the child sees once its directory has its last entry. -/
structure Copied (m : Machine) (d : Word) (g : CopySlot → Word) (s : Machine) : Prop where
  directory : ∀ i ∈ userEntries, s.mem (frame d) i =
    if present (m.mem m.cr3 i) then userEntry (g (.table i)) else 0
  tables : ∀ i ∈ userEntries, present (m.mem m.cr3 i) = true → ∀ j, s.mem (frame (g (.table i))) j =
      if present (m.mem (frame (m.mem m.cr3 i)) j) then userEntry (g (.page i j)) else 0

namespace Copied

variable (h : Copied m d g s)

include h

section

variable (hi : i ∈ userEntries)

include hi

theorem present_table : present (s.mem (frame d) i) = present (m.mem m.cr3 i) := by
  rw [h.directory i hi]
  split
  case isTrue hp => rw [hp, present_userEntry]
  case isFalse hp => rw [present_zero, Bool.eq_false_of_not_eq_true hp]

variable (hp : present (m.mem m.cr3 i) = true)

include hp

theorem frame_table : frame (s.mem (frame d) i) = frame (g (.table i)) := by
  rw [h.directory i hi, if_pos hp, frame_userEntry]

theorem present_page :
    present (s.mem (frame (g (.table i))) j) = present (m.mem (frame (m.mem m.cr3 i)) j) := by
  rw [h.tables i hi hp]
  split
  case isTrue hp => rw [hp, present_userEntry]
  case isFalse hp => rw [present_zero, Bool.eq_false_of_not_eq_true hp]

theorem frame_page (hj : present (m.mem (frame (m.mem m.cr3 i)) j) = true) :
    frame (s.mem (frame (g (.table i))) j) = frame (g (.page i j)) := by
  rw [h.tables i hi hp, if_pos hj, frame_userEntry]

end

theorem tableSlots_eq : tableSlots (s.under (frame d)) userEntries = tableSlots m userEntries := by
  refine tableSlots_congr (fun i hi => h.present_table hi) fun i hi hp j => ?_
  change present (s.mem (frame (s.mem (frame d) i)) j) = _
  rw [h.frame_table hi hp, h.present_page hi hp]

theorem slotFrame_eq {k : CopySlot} (hk : k ∈ tableSlots m userEntries) :
    slotFrame (s.under (frame d)) k = frame (g k) := by
  cases k with
  | table i =>
    obtain ⟨hi, hp⟩ := table_mem_tableSlots.mp hk
    exact h.frame_table hi hp
  | page i j =>
    obtain ⟨hi, hp, hj⟩ := page_mem_tableSlots.mp hk
    change frame (s.mem (frame (s.mem (frame d) i)) j) = _
    rw [h.frame_table hi hp, h.frame_page hi hp hj]

theorem spaceFrames_eq : spaceFrames (s.under (frame d)) =
    (d :: (tableSlots m userEntries).map g).map frame := by
  rw [spaceFrames, h.tableSlots_eq, map_cons, map_map]
  exact congrArg _ (map_congr_left fun k hk => h.slotFrame_eq hk)

theorem pageAt_eq {v : Word} (hv : pdIndex v ∈ userEntries) : (s.under (frame d)).pageAt v =
      (m.pageAt v).map fun _ => frame (g (.page (pdIndex v) (ptIndex v))) := by
  rw [pageAt, pageAt]
  change (if present (s.mem (frame d) (pdIndex v)) then
    (if present (s.mem (frame (s.mem (frame d) (pdIndex v))) (ptIndex v)) then
      some (frame (s.mem (frame (s.mem (frame d) (pdIndex v))) (ptIndex v))) else none)
    else none) = _
  rw [h.present_table hv]
  by_cases hp : present (m.mem m.cr3 (pdIndex v)) = true
  · rw [if_pos hp, if_pos hp, h.frame_table hv hp, h.present_page hv hp]
    by_cases hj : present (m.mem (frame (m.mem m.cr3 (pdIndex v))) (ptIndex v)) = true
    · rw [if_pos hj, if_pos hj, h.frame_page hv hp hj, Option.map_some]
    · rw [if_neg hj, if_neg hj, Option.map_none]
  · rw [if_neg hp, if_neg hp, Option.map_none]

end Copied

theorem copied_of_built (hm : Clear m w) (hb : Built m w d g (tableSlots m userEntries) s)
    (hl : Looked w (s.put (frame d) selfEntry (d ||| pagePresent ||| pageWrite)) s') :
    Copied m d g s' where
  directory i hi := by
    rw [hl.mem _ (hm.ne_window d hb.directory_mem), mem_put_self,
      Function.update_of_ne (ne_selfEntry hi), hb.directory,
      if_neg (Nat.not_lt.mpr (mem_userEntries.mp hi).1)]
    exact if_congr (table_mem_tableSlots.trans (and_iff_right hi)) rfl rfl
  tables i hi hp j := by
    have hk : .table i ∈ tableSlots m userEntries := table_mem_tableSlots.mpr ⟨hi, hp⟩
    rw [hl.mem _ (hm.ne_window _ (hb.slot_mem hk)), mem_put_of_ne (hb.slot_ne_directory hm hk),
      hb.tables i hk]
    exact if_congr (page_mem_tableSlots.trans (by simp [hi, hp])) rfl rfl

/-- The child sees what the parent sees, and all of its frames are its own. -/
theorem fork_copies_memory {owned : Set ℕ} (h : m.Orderly)
    (hw : present (m.mem m.cr3 windowEntry) = true) (ho : m.Owned owned) (hd : d ≠ 0)
    (hcall : clonePageDirectory m = some (d, s')) :
    (∀ v, pdIndex v ∈ userEntries →
      ((s'.under (frame d)).pageAt v).map s'.mem = (m.pageAt v).map m.mem) ∧
    (spaceFrames (s'.under (frame d))).Nodup ∧
    (∀ f ∈ spaceFrames (s'.under (frame d)), f ∉ owned) ∧
    s'.cr3 = m.cr3 ∧
    ∀ f ∈ owned, f ≠ frame (m.mem m.cr3 windowEntry) → s'.mem f = m.mem f := by
  have hm := h.clear hw
  cases hfree : m.free with
  | nil =>
    rw [clone_of_nil hfree] at hcall
    cases hcall
    exact absurd rfl hd
  | cons d₀ rest =>
    obtain ⟨g, s, s'', ⟨-, hb, hrun, hl⟩ | ⟨-, -, -, hrun⟩⟩ := clone_cases hm hfree
    · cases hcall.symm.trans hrun
      have hc := copied_of_built hm hb hl
      have htaken : ∀ a ∈ d :: (tableSlots m userEntries).map g, a ∈ m.free := by
        intro a ha
        rw [hb.frames]
        exact mem_append_left _ ha
      have hsame : ∀ f ∈ owned, f ≠ frame (m.mem m.cr3 windowEntry) → s'.mem f = m.mem f := by
        intro f hf hne
        have hfresh : ∀ a ∈ m.free, f ≠ frame a := fun a ha heq => ho.free a ha (heq ▸ hf)
        rw [hl.mem f hne, mem_put_of_ne (hfresh d hb.directory_mem), hb.same f hne
          (hfresh d hb.directory_mem) fun k hk => hfresh _ (hb.slot_mem hk)]
      refine ⟨fun v hv => ?_, ?_, ?_, hl.cr3.trans hb.cr3, hsame⟩
      · rw [hc.pageAt_eq hv]
        cases hpage : m.pageAt v with
        | none => rfl
        | some f =>
          have hframe := hpage
          simp only [Machine.pageAt, Option.ite_none_right_eq_some, Option.some_inj] at hframe
          obtain ⟨hp, hj, rfl⟩ := hframe
          have hk : .page (pdIndex v) (ptIndex v) ∈ tableSlots m userEntries :=
            page_mem_tableSlots.mpr ⟨hv, hp, hj⟩
          have hspace : source m (pdIndex v) (ptIndex v) ∈ spaceFrames m :=
            mem_cons_of_mem _ (mem_map.mpr ⟨_, hk, rfl⟩)
          refine congrArg some ?_
          rw [hl.mem _ (hm.ne_window _ (hb.slot_mem hk)),
            mem_put_of_ne (hb.slot_ne_directory hm hk)]
          exact hb.pages _ _ hk (ho.window_ne _ hspace) fun a ha heq =>
            ho.free a ha (heq ▸ ho.space _ hspace)
      · rw [hc.spaceFrames_eq]
        refine Nodup.map_on (fun a ha b hb' => hm.frame_inj (htaken a ha) (htaken b hb')) ?_
        have hnodup := hm.nodup
        rw [hb.frames] at hnodup
        exact hnodup.of_append_left
      · rw [hc.spaceFrames_eq]
        intro f hf
        obtain ⟨a, ha, rfl⟩ := mem_map.mp hf
        exact ho.free a (htaken a ha)
    · exact absurd (congrArg Prod.fst (Option.some.inj (hcall.symm.trans hrun))) hd

theorem loneProgram_owned {free : List Word} (hfree : ∀ a ∈ free, 4 < frame a) :
    (loneProgram free).Owned {f | f ≤ 4} := by
  have hwindow : frame ((loneProgram free).mem (loneProgram free).cr3 windowEntry) = 2 := by
    rw [directory_loneProgram]
    decide +kernel
  have hspace : ∀ f ∈ spaceFrames (loneProgram free), f = 1 ∨ f = 3 ∨ f = 4 := by
    intro f hf
    rcases mem_cons.mp hf with rfl | hf
    · exact .inl rfl
    · rw [tableSlots_loneProgram] at hf
      obtain ⟨k, hk, rfl⟩ := mem_map.mp hf
      rcases mem_cons.mp hk with rfl | hk
      · exact .inr (.inl (by rw [slotFrame, directory_loneProgram]; decide +kernel))
      · obtain rfl := mem_singleton.mp hk
        refine .inr (.inr ?_)
        rw [slotFrame, source, directory_loneProgram]
        change frame (loneMemory (frame (loneDirectory programEntry)) _) = 4
        decide +kernel
  refine ⟨fun a ha hle => absurd (hfree a ha) (Nat.not_lt.mpr hle), fun f hf => ?_, ?_,
    fun f hf => ?_⟩
  · rcases hspace f hf with rfl | rfl | rfl <;> decide
  · rw [hwindow]
    exact (by decide : 2 ≤ 4)
  · rw [hwindow]
    rcases hspace f hf with rfl | rfl | rfl <;> decide

theorem loneProgram_copied : ∃ s',
    clonePageDirectory (loneProgram [0x5000, 0x6000, 0x7000]) = some (0x5000, s') ∧
    (∀ v, pdIndex v ∈ userEntries → ((s'.under (frame 0x5000)).pageAt v).map s'.mem =
      ((loneProgram [0x5000, 0x6000, 0x7000]).pageAt v).map loneMemory) ∧
    (spaceFrames (s'.under (frame 0x5000))).Nodup := by
  have horderly : (loneProgram [0x5000, 0x6000, 0x7000]).Orderly :=
    loneProgram_orderly (by decide) (by decide) (by simp [frame])
  have hwindow := loneProgram_window [0x5000, 0x6000, 0x7000]
  have howned : (loneProgram [0x5000, 0x6000, 0x7000]).Owned {f | f ≤ 4} :=
    loneProgram_owned (by simp [frame])
  have hfree : (loneProgram [0x5000, 0x6000, 0x7000]).free = 0x5000 :: [0x6000, 0x7000] := rfl
  obtain ⟨g, s, s', ⟨-, -, hcall, -⟩ | ⟨hlt, -⟩⟩ := clone_cases (horderly.clear hwindow) hfree
  · obtain ⟨hpages, hnodup, -⟩ := fork_copies_memory horderly hwindow howned (by decide) hcall
    exact ⟨s', hcall, hpages, hnodup⟩
  · rw [tableSlots_loneProgram] at hlt
    exact absurd hlt (by decide)

end Aevros
