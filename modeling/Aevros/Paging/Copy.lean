import Aevros.Paging.Clone

/-! # What the copy builds

The copy asks for one frame for each user table, followed by one for each of its pages, so the
frames that it uses are the first ones of the free stack.
-/

namespace Aevros

open List Machine Function

inductive CopySlot
  | table (i : Fin 1024)
  | page (i j : Fin 1024)
  deriving DecidableEq

def pageSlots (m : Machine) (i : Fin 1024) (js : List (Fin 1024)) : List CopySlot :=
  (js.filter fun j => present (m.mem (frame (m.mem m.cr3 i)) j)).map (.page i)

section

variable {m : Machine}

theorem pageSlots_cons (i j : Fin 1024) (js : List (Fin 1024)) : pageSlots m i (j :: js) =
    if present (m.mem (frame (m.mem m.cr3 i)) j) then .page i j :: pageSlots m i js
    else pageSlots m i js := by
  rw [pageSlots, filter_cons, apply_ite (map _)]
  rfl

def tableSlots (m : Machine) (is : List (Fin 1024)) : List CopySlot :=
  is.flatMap fun i =>
    if present (m.mem m.cr3 i) then .table i :: pageSlots m i (finRange 1024) else []

theorem tableSlots_cons (i : Fin 1024) (is : List (Fin 1024)) : tableSlots m (i :: is) =
    (if present (m.mem m.cr3 i) then .table i :: pageSlots m i (finRange 1024) else []) ++
      tableSlots m is := rfl

end

namespace Copy

/-- The free frames are not those that the copy reads while it writes. -/
structure Clear (m : Machine) (w : ℕ) : Prop extends m.Supply w where
  tables : ∀ i ∈ userEntries, present (m.mem m.cr3 i) = true →
    frame (m.mem m.cr3 i) ≠ w ∧ ∀ a ∈ m.free, frame a ≠ frame (m.mem m.cr3 i)

variable {m s s' : Machine} {w : ℕ} {d p t : Word} {g : CopySlot → Word} {L : List CopySlot}
  {k : CopySlot}
  {i j : Fin 1024} {rest : List Word}

def source (m : Machine) (i j : Fin 1024) : ℕ := frame (m.mem (frame (m.mem m.cr3 i)) j)

/-- The copy `d` of the directory of `m` has the tables and pages `L`, in the frames `g`. -/
structure Built (m : Machine) (w : ℕ) (d : Word) (g : CopySlot → Word) (L : List CopySlot)
    (s : Machine) : Prop where
  wired : s.Wired w
  cr3 : s.cr3 = m.cr3
  frames : m.free = d :: (L.map g ++ s.free)
  same : ∀ f, f ≠ w → f ≠ frame d → (∀ k ∈ L, f ≠ frame (g k)) → s.mem f = m.mem f
  directory : ∀ i, s.mem (frame d) i =
    if .table i ∈ L then userEntry (g (.table i)) else if i.val < 10 then m.mem m.cr3 i else 0
  tables : ∀ i, .table i ∈ L → ∀ j, s.mem (frame (g (.table i))) j =
    if .page i j ∈ L then userEntry (g (.page i j)) else 0
  pages : ∀ i j, .page i j ∈ L → source m i j ≠ w → (∀ a ∈ m.free, source m i j ≠ frame a) →
    s.mem (frame (g (.page i j))) = m.mem (source m i j)
  table_mem : ∀ i j, .page i j ∈ L → .table i ∈ L

section

variable (h : Built m w d g L s)

include h

theorem Built.directory_mem : d ∈ m.free := by
  rw [h.frames]
  exact mem_cons_self

theorem Built.slot_mem (hk : k ∈ L) : g k ∈ m.free := by
  rw [h.frames]
  exact mem_cons_of_mem _ (mem_append_left _ (mem_map_of_mem hk))

theorem Built.free_mem {a : Word} (ha : a ∈ s.free) : a ∈ m.free := by
  rw [h.frames]
  exact mem_cons_of_mem _ (mem_append_right _ ha)

theorem Built.frames_concat (hfree : s.free = p :: rest) (hg : g k = p) :
    m.free = d :: ((L ++ [k]).map g ++ rest) := by
  rw [h.frames, hfree, map_append, map_singleton, hg, append_assoc, singleton_append]

theorem Built.same_concat (hg : g k = p) {f₀ : ℕ} (hf₀ : f₀ = frame d ∨ ∃ k' ∈ L, f₀ = frame (g k'))
    (hmem : ∀ f, f ≠ w → f ≠ frame p → f ≠ f₀ → s'.mem f = s.mem f) (f : ℕ) (hw : f ≠ w)
    (hd : f ≠ frame d) (hL : ∀ k' ∈ L ++ [k], f ≠ frame (g k')) : s'.mem f = m.mem f := by
  have hk : f ≠ frame p := hg ▸ hL k (by simp)
  have hL' : ∀ k' ∈ L, f ≠ frame (g k') := fun k' hk' => hL k' (by simp [hk'])
  rw [hmem f hw hk ?_, h.same f hw hd hL']
  rcases hf₀ with rfl | ⟨k', hk', rfl⟩
  · exact hd
  · exact hL' k' hk'

end

def Scratch (k : Fin 1024) : Prop := k = ptIndex tempSrcPage ∨ k = ptIndex tempDstPage

def CopySlot.isTable : CopySlot → Bool
  | .table _ => true
  | .page _ _ => false

def tableCount (L : List CopySlot) : ℕ := L.countP CopySlot.isTable

theorem tableCount_concat (L : List CopySlot) (i : Fin 1024) {P : List CopySlot}
    (hP : ∀ k ∈ P, ∃ j, k = .page i j) : tableCount (L ++ [.table i] ++ P) = tableCount L + 1 := by
  have hpages : P.countP CopySlot.isTable = 0 := by
    refine countP_eq_zero.mpr fun k hk => ?_
    obtain ⟨j, rfl⟩ := hP k hk
    exact Bool.false_ne_true
  rw [tableCount, countP_append, hpages, countP_append]
  rfl

theorem mem_pageSlots (hk : k ∈ pageSlots m i (finRange 1024)) : ∃ j, k = .page i j := by
  obtain ⟨j, -, rfl⟩ := mem_map.mp hk
  exact ⟨j, rfl⟩

theorem mem_zip_append_left {α β : Type} {l₁ l₂ : List α} {r : List β} {x : α × β}
    (hx : x ∈ l₁.zip r) : x ∈ (l₁ ++ l₂).zip r := by
  induction l₁ generalizing r with
  | nil => cases hx
  | cons a l₁ ih =>
    cases r with
    | nil => cases hx
    | cons b r =>
      rcases mem_cons.mp hx with rfl | hx
      · exact mem_cons_self
      · exact mem_cons_of_mem _ (ih hx)

section

variable (hm : Clear m w)

include hm

section

variable (h : Built m w d g L s)

include h

namespace Built

theorem fresh {a : Word} (ha : a ∈ s.free) :
    frame a ≠ frame d ∧ ∀ k ∈ L, frame a ≠ frame (g k) := by
  have hnodup := hm.nodup
  rw [h.frames, nodup_cons, nodup_append] at hnodup
  constructor
  · intro heq
    have := hm.frame_inj (h.free_mem ha) h.directory_mem heq
    exact hnodup.1 (this ▸ mem_append_right _ ha)
  · intro k hk heq
    have := hm.frame_inj (h.free_mem ha) (h.slot_mem hk) heq
    exact hnodup.2.2.2 _ (mem_map_of_mem hk) a ha this.symm

theorem slot_ne_directory (hk : k ∈ L) : frame (g k) ≠ frame d := by
  have hnodup := hm.nodup
  rw [h.frames, nodup_cons] at hnodup
  intro heq
  have := hm.frame_inj (h.slot_mem hk) h.directory_mem heq
  exact hnodup.1 (this ▸ mem_append_left _ (mem_map_of_mem hk))

theorem slot_inj {k' : CopySlot} (hk : k ∈ L) (hk' : k' ∈ L)
    (heq : frame (g k) = frame (g k')) : k = k' := by
  have hnodup := hm.nodup
  rw [h.frames, nodup_cons, nodup_append] at hnodup
  exact inj_on_of_nodup_map hnodup.2.1 hk hk' (hm.frame_inj (h.slot_mem hk) (h.slot_mem hk') heq)

theorem congr (hwired : s'.Wired w) (hcr3 : s'.cr3 = s.cr3) (hfree : s'.free = s.free)
    (hmem : ∀ f, f ≠ w → s'.mem f = s.mem f) :
    Built m w d g L s' where
  wired := hwired
  cr3 := hcr3.trans h.cr3
  frames := hfree ▸ h.frames
  same f hw hd hL := (hmem f hw).trans (h.same f hw hd hL)
  directory i := by
    rw [hmem _ (hm.ne_window _ h.directory_mem)]
    exact h.directory i
  tables i hi j := by
    rw [hmem _ (hm.ne_window _ (h.slot_mem hi))]
    exact h.tables i hi j
  pages i j hij hw hfree := by
    rw [hmem _ (hm.ne_window _ (h.slot_mem hij))]
    exact h.pages i j hij hw hfree
  table_mem := h.table_mem

theorem source_directory : s.mem s.cr3 = m.mem m.cr3 := by
  rw [h.cr3]
  refine h.same _ ?_ ?_ fun k hk => ?_
  · exact hm.wired.ne.symm
  · exact (hm.ne_cr3 _ h.directory_mem).symm
  · exact (hm.ne_cr3 _ (h.slot_mem hk)).symm

theorem source_table (hi : i ∈ userEntries) (hp : present (m.mem m.cr3 i) = true) :
    s.mem (frame (m.mem m.cr3 i)) = m.mem (frame (m.mem m.cr3 i)) := by
  obtain ⟨hw, hfree⟩ := hm.tables i hi hp
  refine h.same _ hw ?_ fun k hk => ?_
  · exact (hfree _ h.directory_mem).symm
  · exact (hfree _ (h.slot_mem hk)).symm

theorem addPage (hi : .table i ∈ L) (hfree : s.free = p :: rest) (hg : g (.page i j) = p)
    (hwired : s'.Wired w) (hcr3 : s'.cr3 = s.cr3) (hfree' : s'.free = rest)
    (hpage : source m i j ≠ w → s'.mem (frame p) = s.mem (source m i j))
    (htable : s'.mem (frame (g (.table i))) = update (s.mem (frame (g (.table i)))) j (userEntry p))
    (hmem : ∀ f, f ≠ w → f ≠ frame p → f ≠ frame (g (.table i)) → s'.mem f = s.mem f) :
    Built m w d g (L ++ [.page i j]) s' := by
  have hmem_p : p ∈ s.free := mem_free hfree
  obtain ⟨hpd, hpL⟩ := h.fresh hm hmem_p
  have hnew : ∀ k, k ∈ L ++ [.page i j] ↔ k ∈ L ∨ k = .page i j := by simp
  refine ⟨hwired, hcr3.trans h.cr3, ?_, ?_, fun i' => ?_, fun i' hi' j' => ?_,
    fun i' j' hij' hw hfree'' => ?_, fun i' j' hij' => ?_⟩
  · rw [hfree']
    exact h.frames_concat hfree hg
  · exact h.same_concat hg (.inr ⟨_, hi, rfl⟩) hmem
  · have hne := (h.slot_ne_directory hm hi).symm
    rw [hmem _ (hm.ne_window _ h.directory_mem) hpd.symm hne, h.directory]
    simp [hnew]
  · have hold : .table i' ∈ L := by simpa [hnew] using hi'
    by_cases hii : i' = i
    · subst hii
      rw [htable]
      by_cases hj : j' = j
      · subst hj
        rw [update_self, if_pos (by simp [hnew]), hg]
      · rw [update_of_ne hj, h.tables i' hold]
        simp [hj]
    · have hne : frame (g (.table i')) ≠ frame (g (.table i)) := fun heq =>
        hii (CopySlot.table.inj (h.slot_inj hm hold hi heq))
      rw [hmem _ (hm.ne_window _ (h.slot_mem hold)) (hpL _ hold).symm hne, h.tables i' hold]
      simp [hii]
  · rcases (hnew _).mp hij' with hij' | heq
    · have hne : frame (g (.page i' j')) ≠ frame (g (.table i)) := fun heq =>
        nomatch h.slot_inj hm hij' hi heq
      rw [hmem _ (hm.ne_window _ (h.slot_mem hij')) (hpL _ hij').symm hne]
      exact h.pages i' j' hij' hw hfree''
    · obtain ⟨rfl, rfl⟩ : i' = i ∧ j' = j := by simpa using heq
      rw [hg, hpage hw]
      exact h.same _ hw (hfree'' d h.directory_mem) fun k hk => hfree'' _ (h.slot_mem hk)
  · rcases (hnew _).mp hij' with hij' | heq
    · exact (hnew _).mpr (.inl (h.table_mem i' j' hij'))
    · obtain ⟨rfl, rfl⟩ : i' = i ∧ j' = j := by simpa using heq
      exact (hnew _).mpr (.inl hi)

theorem addTable (hfree : s.free = t :: rest) (hg : g (.table i) = t) (hwired : s'.Wired w)
    (hcr3 : s'.cr3 = s.cr3) (hfree' : s'.free = rest) (htable : s'.mem (frame t) = fun _ => 0)
    (hdir : s'.mem (frame d) = update (s.mem (frame d)) i (userEntry t))
    (hmem : ∀ f, f ≠ w → f ≠ frame t → f ≠ frame d → s'.mem f = s.mem f) :
    Built m w d g (L ++ [.table i]) s' := by
  have hmem_t : t ∈ s.free := mem_free hfree
  obtain ⟨htd, htL⟩ := h.fresh hm hmem_t
  have hnew : ∀ k, k ∈ L ++ [.table i] ↔ k ∈ L ∨ k = .table i := by simp
  have hnot : .table i ∉ L := fun hi => htL _ hi (by rw [hg])
  refine ⟨hwired, hcr3.trans h.cr3, ?_, ?_, fun i' => ?_, fun i' hi' j' => ?_,
    fun i' j' hij' hw hfree'' => ?_, fun i' j' hij' => ?_⟩
  · rw [hfree']
    exact h.frames_concat hfree hg
  · exact h.same_concat hg (.inl rfl) hmem
  · rw [hdir]
    by_cases hii : i' = i
    · subst hii
      rw [update_self, if_pos (by simp [hnew]), hg]
    · rw [update_of_ne hii, h.directory]
      simp [hii]
  · rcases (hnew _).mp hi' with hold | heq
    · rw [hmem _ (hm.ne_window _ (h.slot_mem hold)) (htL _ hold).symm (h.slot_ne_directory hm hold),
        h.tables i' hold]
      simp [hnew]
    · obtain rfl : i' = i := by simpa using heq
      -- no page of the table exists yet
      have hpage : .page i' j' ∉ L := fun hij => hnot (h.table_mem i' j' hij)
      rw [hg, htable]
      simp [hpage]
  · have hold : .page i' j' ∈ L := by simpa [hnew] using hij'
    rw [hmem _ (hm.ne_window _ (h.slot_mem hold)) (htL _ hold).symm (h.slot_ne_directory hm hold)]
    exact h.pages i' j' hold hw hfree''
  · have hold : .page i' j' ∈ L := by simpa [hnew] using hij'
    exact (hnew _).mpr (.inl (h.table_mem i' j' hold))

theorem clonePage (ht : .table i ∈ L)
    (hwin : s.mem w (ptIndex tempPtVirt) = shown (g (.table i)))
    (hfree : s.free = p :: rest) (hg : g (.page i j) = p) {entry : Word}
    (hentry : frame entry = source m i j) :
    ∃ s₁ s', memcpyPagePhysical { s with free := rest } p (entryAddr entry) = some s₁ ∧
      s₁.store (wordAddr tempPtVirt j) (userEntry p) = some s' ∧
      Built m w d g (L ++ [.page i j]) s' ∧ s'.free = rest ∧
      ∀ k, ¬ Scratch k → s'.mem w k = s.mem w k := by
  have hp : p ∈ s.free := mem_free hfree
  have hpm := h.free_mem hp
  have hpd : frame p ≠ s.cr3 := h.cr3 ▸ hm.ne_cr3 p hpm
  have hpw := hm.ne_window p hpm
  have htw := hm.ne_window _ (h.slot_mem ht)
  have htc : frame (g (.table i)) ≠ s.cr3 := h.cr3 ▸ hm.ne_cr3 _ (h.slot_mem ht)
  have hpt : frame p ≠ frame (g (.table i)) := (h.fresh hm hp).2 _ ht
  obtain ⟨page, win, hcopy, hpage, hkeep⟩ :=
    (h.wired.withFree rest).memcpyPagePhysical (entryAddr entry) hpd hpw
  rw [frame_entryAddr, hentry] at hpage
  set s₁ := (({ s with free := rest } : Machine).setPage (frame p) page).setPage w win with hs₁
  have hwired₁ : s₁.Wired w := ((h.wired.withFree rest).setPage hpd).setPage h.wired.ne
  have hat : s₁.pageAt tempPtVirt = some (frame (g (.table i))) := by
    refine hwired₁.pageAt_window (by decide) ?_
    rw [mem_setPage_self, hkeep _ (by decide) (by decide)]
    exact hwin
  refine ⟨s₁, s₁.put (frame (g (.table i))) j (userEntry p), hcopy,
    store_wordAddr (by decide) hat, ?_, rfl, fun k hk => ?_⟩
  · have hmem : ∀ f, f ≠ w → f ≠ frame p → s₁.mem f = s.mem f := by
      intro f hfw hfp
      rw [mem_setPage_of_ne hfw, mem_setPage_of_ne hfp]
    refine h.addPage hm ht hfree hg (hwired₁.put htc) rfl rfl (fun hsw => ?_) ?_
      fun f hfw hfp hft => ?_
    · rw [mem_put_of_ne hpt, mem_setPage_of_ne hpw, mem_setPage_self]
      exact hpage hsw
    · rw [mem_put_self, hmem _ htw hpt.symm]
    · rw [mem_put_of_ne hft]
      exact hmem f hfw hfp
  · rw [mem_put_of_ne htw.symm, mem_setPage_self]
    exact hkeep k (fun heq => hk (.inl heq)) fun heq => hk (.inr heq)

theorem clonePages (hi : i ∈ userEntries) (hp : present (m.mem m.cr3 i) = true)
    (ht : .table i ∈ L) (hwin : s.mem w (ptIndex tempPtVirt) = shown (g (.table i)))
    (js : List (Fin 1024)) (hg : ∀ x ∈ (pageSlots m i js).zip s.free, g x.1 = x.2) :
    ∃ s', clonePages i js s = some (decide ((pageSlots m i js).length ≤ s.free.length), s') ∧
      Built m w d g (L ++ (pageSlots m i js).take s.free.length) s' ∧
      ∀ k, ¬ Scratch k → s'.mem w k = s.mem w k := by
  induction js generalizing s L with
  | nil =>
    refine ⟨s, ?_, ?_, fun _ _ => rfl⟩
    · simp [Aevros.clonePages, pageSlots]
    · simpa [pageSlots] using h
  | cons j js ih =>
    have hdir := h.source_directory hm
    have htab := h.source_table hm hi hp
    have hload : s.load (wordAddr (tableAddr i) j) = some (m.mem (frame (m.mem m.cr3 i)) j) := by
      rw [load_wordAddr (dvd_tableAddr i)
        (h.wired.toRecursive.pageAt_tableAddr (by rw [hdir]; exact hp)), hdir, htab]
    rw [Aevros.clonePages, hload, Option.bind_eq_bind, Option.bind_some]
    split_ifs with hpj
    · rw [pageSlots_cons, if_pos hpj] at hg ⊢
      cases hfree : s.free with
      | nil =>
        refine ⟨s, ?_, ?_, fun _ _ => rfl⟩
        · rw [pmmAlloc_nil hfree]
          rfl
        · rw [length_nil, take_zero, append_nil]
          exact h
      | cons p rest =>
        rw [hfree] at hg
        have hgp : g (.page i j) = p := hg (_, _) mem_cons_self
        have hp0 : p ≠ 0 := hm.ne_zero p (h.free_mem (mem_free hfree))
        obtain ⟨s₁, s₂, hcopy, hstore, hbuilt, hfree₂, hkeep⟩ :=
          h.clonePage hm ht hwin hfree hgp rfl
        have hwin₂ : s₂.mem w (ptIndex tempPtVirt) = shown (g (.table i)) := by
          rw [hkeep _ (by unfold Scratch; decide), hwin]
        obtain ⟨s', hcall, hbuilt', hkeep'⟩ := ih hbuilt (mem_append_left _ ht) hwin₂
          (hfree₂ ▸ fun x hx => hg x (mem_cons_of_mem _ hx))
        refine ⟨s', ?_, ?_, fun k hk => (hkeep' k hk).trans (hkeep k hk)⟩
        · rw [pmmAlloc_cons hfree]
          dsimp only
          rw [if_neg hp0, hcopy, Option.bind_eq_bind, Option.bind_some, hstore, Option.bind_some,
            hcall,
            hfree₂]
          simp
        · rwa [hfree₂, append_assoc] at hbuilt'
    · rw [pageSlots_cons, if_neg hpj] at hg ⊢
      exact ih h ht hwin hg

theorem cloneTable (hwin : s.mem w (ptIndex tempPdVirt) = shown d)
    (hfree : s.free = t :: rest) (hg : g (.table i) = t) :
    ∃ s₁ s₂ s₃, mapPage { s with free := rest } tempPtVirt t (pagePresent ||| pageWrite) = some s₁ ∧
      s₁.memset0 tempPtVirt = some s₂ ∧
      s₂.store (wordAddr tempPdVirt i) (userEntry t) = some s₃ ∧
      Built m w d g (L ++ [.table i]) s₃ ∧ s₃.free = rest ∧
      s₃.mem w (ptIndex tempPdVirt) = shown d ∧
      s₃.mem w (ptIndex tempPtVirt) = shown t := by
  have ht : t ∈ s.free := mem_free hfree
  have htm := h.free_mem ht
  have htc : frame t ≠ s.cr3 := h.cr3 ▸ hm.ne_cr3 t htm
  have htw := hm.ne_window t htm
  have hdc : frame d ≠ s.cr3 := h.cr3 ▸ hm.ne_cr3 d h.directory_mem
  have hdw := hm.ne_window d h.directory_mem
  have htd : frame t ≠ frame d := (h.fresh hm ht).1
  have hwired := h.wired.withFree rest
  set s₁ := ({ s with free := rest } : Machine).put w (ptIndex tempPtVirt) (shown t) with hs₁
  have hwired₁ : s₁.Wired w := hwired.put h.wired.ne
  have hpt₁ : s₁.mem w (ptIndex tempPtVirt) = shown t := by
    rw [mem_put_self, update_self]
  have hpd₁ : s₁.mem w (ptIndex tempPdVirt) = shown d := by
    rw [mem_put_self]
    exact hwin
  have hset : s₁.memset0 tempPtVirt = some (s₁.setPage (frame t) fun _ => 0) := by
    refine memset0_eq (by decide) (hwired₁.pageAt_window (by decide) hpt₁) htc ?_
    have hpd : pdIndex tempPtVirt = windowEntry := by decide
    rw [hpd, hwired₁.window_frame]
    exact htw
  set s₂ := s₁.setPage (frame t) fun _ => 0 with hs₂
  have hwired₂ : s₂.Wired w := hwired₁.setPage htc
  have hwin₂ : s₂.mem w = s₁.mem w := mem_setPage_of_ne htw.symm
  have hat : s₂.pageAt tempPdVirt = some (frame d) :=
    hwired₂.pageAt_window (by decide) (by rw [hwin₂]; exact hpd₁)
  refine ⟨s₁, s₂, s₂.put (frame d) i (userEntry t), hwired.mapWindow (by decide), hset,
    store_wordAddr (by decide) hat, ?_, rfl, ?_, ?_⟩
  · have hmem : ∀ f, f ≠ w → f ≠ frame t → s₂.mem f = s.mem f := by
      intro f hfw hft
      rw [mem_setPage_of_ne hft, mem_put_of_ne hfw]
    refine h.addTable hm hfree hg (hwired₂.put hdc) rfl rfl ?_ ?_ fun f hfw hft hfd => ?_
    · rw [mem_put_of_ne htd, mem_setPage_self]
    · rw [mem_put_self, hmem _ hdw htd.symm]
    · rw [mem_put_of_ne hfd]
      exact hmem f hfw hft
  · rw [mem_put_of_ne hdw.symm, hwin₂]
    exact hpd₁
  · rw [mem_put_of_ne hdw.symm, hwin₂]
    exact hpt₁

theorem unmap {v : Word} (hv : pdIndex v = windowEntry) :
    ∃ s', unmap s v = some s' ∧ Built m w d g L s' ∧ s'.free = s.free ∧
      ∀ k, k ≠ ptIndex v → s'.mem w k = s.mem w k := by
  refine ⟨_, h.wired.unmapWindow hv, ?_, rfl, fun k hk => ?_⟩
  · exact h.congr hm (h.wired.put h.wired.ne) rfl rfl fun f hf => mem_put_of_ne hf
  · rw [mem_put_self, update_of_ne hk]

theorem cloneTables (hwin : s.mem w (ptIndex tempPdVirt) = shown d)
    (is : List (Fin 1024)) (his : ∀ i ∈ is, i ∈ userEntries)
    (hg : ∀ x ∈ (tableSlots m is).zip s.free, g x.1 = x.2) :
    ((tableSlots m is).length ≤ s.free.length ∧ ∃ s', cloneTables d is (tableCount L) s =
        some (true, s') ∧ Built m w d g (L ++ tableSlots m is) s' ∧
        s'.mem w (ptIndex tempPdVirt) = shown d) ∨
      (s.free.length < (tableSlots m is).length ∧ ∃ s',
        Built m w d g (L ++ (tableSlots m is).take s.free.length) s' ∧
        cloneTables d is (tableCount L) s =
          (cloneRollback s' d (tableCount (L ++ (tableSlots m is).take s.free.length))).map
            fun s => (false, s)) := by
  induction is generalizing s L with
  | nil =>
    left
    exact ⟨Nat.zero_le _, s, rfl, by simpa [tableSlots] using h, hwin⟩
  | cons i is ih =>
    have hi := his i mem_cons_self
    have his' : ∀ i ∈ is, i ∈ userEntries := fun i hi => his i (mem_cons_of_mem _ hi)
    have hload : s.load (wordAddr pageRecursive i) = some (m.mem m.cr3 i) := by
      rw [h.wired.toRecursive.load_directory, h.source_directory hm]
    rw [Aevros.cloneTables, hload, Option.bind_eq_bind, Option.bind_some]
    split_ifs with hp
    · rw [tableSlots_cons, if_pos hp, cons_append] at hg ⊢
      generalize hP : pageSlots m i (finRange 1024) = P at hg ⊢
      generalize hT : tableSlots m is = T at hg ⊢
      cases hfree : s.free with
      | nil =>
        right
        obtain ⟨s₁, hun, hbuilt, -, -⟩ := h.unmap hm (v := tempPdVirt) (by decide)
        refine ⟨Nat.succ_pos _, s₁, ?_, ?_⟩
        · rw [length_nil, take_zero, append_nil]
          exact hbuilt
        · rw [pmmAlloc_nil hfree, length_nil, take_zero, append_nil]
          dsimp only
          rw [hun, Option.map_eq_bind]
          rfl
      | cons t rest =>
        rw [hfree] at hg
        have hgt : g (.table i) = t := hg (_, _) mem_cons_self
        have hg' : ∀ x ∈ (P ++ T).zip rest, g x.1 = x.2 :=
          fun x hx => hg x (mem_cons_of_mem _ hx)
        have ht0 : t ≠ 0 := hm.ne_zero t (h.free_mem (mem_free hfree))
        obtain ⟨s₁, s₂, s₃, hmap, hset, hstore, h₃, hfree₃, hpd₃, hpt₃⟩ :=
          h.cloneTable hm hwin hfree hgt
        have hpages := h₃.clonePages hm hi hp (by simp) (hgt ▸ hpt₃) (finRange 1024)
          (by rw [hP, hfree₃]; exact fun x hx => hg' x (mem_zip_append_left hx))
        rw [hP, hfree₃] at hpages
        obtain ⟨s₄, hcall, h₄, hkeep⟩ := hpages
        obtain ⟨s₅, hun, h₅, hfree₅, hkeep₅⟩ := h₄.unmap hm (v := tempPtVirt) (by decide)
        have hpd₅ : s₅.mem w (ptIndex tempPdVirt) = shown d := by
          rw [hkeep₅ _ (by decide), hkeep _ (by unfold Scratch; decide), hpd₃]
        rw [pmmAlloc_cons hfree]
        simp only [if_neg ht0, hmap, hset, hstore, hcall, hun, Option.bind_eq_bind,
          Option.bind_some,
          decide_eq_true_eq]
        by_cases hok : P.length ≤ rest.length
        · rw [take_of_length_le hok] at h₅
          have hrest : rest = P.map g ++ s₅.free := by
            have heq := h₃.frames.symm.trans h₅.frames
            rw [hfree₃, (map_append : map g (_ ++ P) = _), append_assoc] at heq
            exact append_cancel_left (cons.inj heq).2
          have hlen : rest.length = P.length + s₅.free.length := by
            rw [hrest, length_append, length_map]
          have hcount : tableCount (L ++ [.table i] ++ P) = tableCount L + 1 := by
            rw [← hP]
            exact tableCount_concat L i fun k hk => mem_pageSlots hk
          have hrec := ih h₅ hpd₅ his' (by
            rw [hT]
            refine fun x hx => hg' x ?_
            rw [hrest, zip_append (length_map _).symm]
            exact mem_append_right _ hx)
          rw [hT, hcount] at hrec
          rw [if_pos hok]
          have hlist : L ++ [.table i] ++ P ++ T = L ++ .table i :: (P ++ T) := by simp
          rcases hrec with ⟨hle, s', hcall', hb, hw⟩ | ⟨hlt, s', hb, hcall'⟩
          · left
            refine ⟨?_, s', hcall', hlist ▸ hb, hw⟩
            simp only [length_cons, length_append]
            omega
          · right
            have htake : L ++ [.table i] ++ P ++ T.take s₅.free.length =
                L ++ (.table i :: (P ++ T)).take (t :: rest).length := by
              rw [length_cons, take_succ_cons, take_append, hlen]
              simp
            rw [htake] at hb hcall'
            refine ⟨?_, s', hb, hcall'⟩
            simp only [length_cons, length_append]
            omega
        · right
          obtain ⟨s₆, hun₆, h₆, -, -⟩ := h₅.unmap hm (v := tempPdVirt) (by decide)
          have htake : L ++ [.table i] ++ P.take rest.length =
              L ++ (.table i :: (P ++ T)).take (t :: rest).length := by
            rw [length_cons, take_succ_cons, take_append_of_le_length (by omega)]
            simp
          have hcount : tableCount (L ++ [.table i] ++ P.take rest.length) = tableCount L + 1 := by
            rw [← hP]
            exact tableCount_concat L i fun k hk => mem_pageSlots (mem_of_mem_take hk)
          rw [htake] at h₆ hcount
          refine ⟨?_, s₆, h₆, ?_⟩
          · simp only [length_cons, length_append]
            omega
          · rw [if_neg hok, hun₆, hcount, Option.map_eq_bind]
            rfl
    · rw [tableSlots_cons, if_neg hp, nil_append] at hg ⊢
      exact ih h hwin his' hg

end Built

end

end

end Copy

end Aevros
