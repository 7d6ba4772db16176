import Aevros.Paging.Copy

/-! # Taking back what was built

The rollback gives back the frames that it finds in a range of entries of the copy. So it is known
what `clone_page_directory` does to the free stack in every case.
-/

namespace Aevros.Copy

open List Machine Function

variable {m s s' : Machine} {w : ℕ} {d t : Word} {g : CopySlot → Word} {L : List CopySlot}
  {k : CopySlot}
  {i j : Fin 1024} {rest : List Word} {is : List (Fin 1024)}

theorem rollbackPages_eq {f : ℕ} (hat : s.pageAt tempPtVirt = some f) (js : List (Fin 1024)) :
    rollbackPages js s =
      some { s with free := (pageFrames (s.mem f) js).foldl freeFrame s.free } := by
  induction js generalizing s with
  | nil => rfl
  | cons j js ih =>
    rw [rollbackPages, load_wordAddr (by decide) hat, Option.bind_eq_bind, Option.bind_some]
    split_ifs with hp
    · rw [ih (s := pmmFree s (entryAddr (s.mem f j))) hat, pageFrames_cons_of_present hp]
      rfl
    · rw [ih hat, pageFrames_cons_of_absent hp]

/-- What is only looked at through windows stays, except the windows and the free stack. -/
structure Looked (w : ℕ) (s s' : Machine) : Prop where
  wired : s'.Wired w
  cr3 : s'.cr3 = s.cr3
  mem : ∀ f, f ≠ w → s'.mem f = s.mem f

theorem rollbackTables_spec (hs : s.Wired w) (hwin : s.mem w (ptIndex tempPdVirt) = shown d)
    (hd : frame d ≠ w) (is : List (Fin 1024))
    (his : ∀ i ∈ is, present (s.mem (frame d) i) = true → frame (s.mem (frame d) i) ≠ w) :
    ∃ s', rollbackTables is s = some s' ∧ Looked w s s' ∧
      s'.free = (tableFrames s.mem (s.mem (frame d)) is).foldl freeFrame s.free := by
  induction is generalizing s with
  | nil => exact ⟨s, rfl, ⟨hs, rfl, fun _ _ => rfl⟩, rfl⟩
  | cons i is ih =>
    have hat : s.pageAt tempPdVirt = some (frame d) := hs.pageAt_window (by decide) hwin
    rw [rollbackTables, load_wordAddr (by decide) hat, Option.bind_eq_bind, Option.bind_some]
    have his' : ∀ i ∈ is, present (s.mem (frame d) i) = true → frame (s.mem (frame d) i) ≠ w :=
      fun i hi => his i (mem_cons_of_mem _ hi)
    by_cases hp : present (s.mem (frame d) i) = true
    · have htw := his i mem_cons_self hp
      generalize he : s.mem (frame d) i = e at hp htw
      set s₁ := s.put w (ptIndex tempPtVirt) (shown (entryAddr e)) with hs₁
      have hwired₁ : s₁.Wired w := hs.put hs.ne
      have hat₁ : s₁.pageAt tempPtVirt = some (frame e) := by
        rw [← frame_entryAddr]
        refine hwired₁.pageAt_window (by decide) ?_
        rw [mem_put_self, update_self]
      have hmem₁ : ∀ f, f ≠ w → s₁.mem f = s.mem f := fun f hf => mem_put_of_ne hf
      have hmap : mapPage s tempPtVirt (entryAddr e) (pagePresent ||| pageWrite) = some s₁ :=
        hs.mapWindow (by decide)
      obtain ⟨F, hF⟩ : ∃ F, F =
        (pageFrames (s.mem (frame e)) (finRange 1024)).foldl freeFrame s.free := ⟨_, rfl⟩
      have hpages : rollbackPages (finRange 1024) s₁ = some { s₁ with free := F } := by
        have hfree₁ : s₁.free = s.free := free_put
        rw [rollbackPages_eq hat₁, hmem₁ _ htw, hfree₁, hF]
      have hwired₂ := hwired₁.withFree F
      set s₄ := pmmFree (({ s₁ with free := F } : Machine).put w (ptIndex tempPtVirt) 0)
        (entryAddr e) with hs₄
      have hwired₄ : s₄.Wired w := (hwired₂.put hs.ne).withFree _
      have hmem₄ : ∀ f, f ≠ w → s₄.mem f = s.mem f := fun f hf =>
        (mem_put_of_ne hf).trans (hmem₁ f hf)
      have hwin₄ : s₄.mem w (ptIndex tempPdVirt) = shown d := by
        rw [← hwin]
        refine (congrFun mem_put_self _).trans ?_
        refine (congrFun mem_put_self _).trans ?_
        rw [update_of_ne (by decide)]
      obtain ⟨s', hcall, hlooked, hfree⟩ := ih hwired₄ hwin₄ (by rw [hmem₄ _ hd]; exact his')
      refine ⟨s', ?_, ⟨hlooked.wired, hlooked.cr3, fun f hf => ?_⟩, ?_⟩
      · simp only [if_pos hp, hmap, hpages, hwired₂.unmapWindow (v := tempPtVirt) (by decide),
          Option.bind_eq_bind, Option.bind_some]
        exact hcall
      · exact (hlooked.mem f hf).trans (hmem₄ f hf)
      · have hcons : tableFrames s.mem (s.mem (frame d)) (i :: is) = _ :=
          tableFrames_cons_of_present (he ▸ hp)
        have hcongr : tableFrames s₄.mem (s.mem (frame d)) is =
            tableFrames s.mem (s.mem (frame d)) is :=
          tableFrames_congr (fun _ _ => rfl) fun i hi hp => hmem₄ _ (his' i hi hp)
        rw [hfree, hmem₄ _ hd, hcongr, hcons, he, foldl_append, foldl_append, ← hF]
        rfl
    · rw [if_neg hp, tableFrames_cons_of_absent hp]
      exact ih hs hwin his'

theorem Built.present_table (h : Built m w d g L s) (hi : 10 ≤ i.val) :
    present (s.mem (frame d) i) = true ↔ .table i ∈ L := by
  rw [h.directory]
  by_cases hL : .table i ∈ L
  · rw [if_pos hL, present_userEntry]
    exact iff_of_true rfl hL
  · rw [if_neg hL, if_neg (by omega)]
    exact iff_of_false Bool.false_ne_true hL

theorem Built.directory_eq (h : Built m w d g L s) (hi : .table i ∈ L) :
    s.mem (frame d) i = userEntry (g (.table i)) := by
  rw [h.directory, if_pos hi]

theorem Built.present_page (h : Built m w d g L s) (hi : .table i ∈ L) :
    present (s.mem (frame (g (.table i))) j) = true ↔ .page i j ∈ L := by
  rw [h.tables i hi]
  split_ifs with hL
  · rw [present_userEntry]
    exact iff_of_true rfl hL
  · exact iff_of_false Bool.false_ne_true hL

theorem Built.mem_tableFrames (hm : Clear m w) (h : Built m w d g L s) (his : ∀ i ∈ is, 10 ≤ i.val)
    {a : Word} :
    a ∈ tableFrames s.mem (s.mem (frame d)) is ↔ ∃ i ∈ is, .table i ∈ L ∧
      (a = g (.table i) ∨ ∃ j, .page i j ∈ L ∧ a = g (.page i j)) := by
  rw [Aevros.mem_tableFrames]
  refine exists_congr fun i => and_congr_right fun hi => ?_
  rw [h.present_table (his i hi)]
  refine and_congr_right fun hL => ?_
  rw [h.directory_eq hL, entryAddr_userEntry (hm.aligned _ (h.slot_mem hL)), frame_userEntry]
  refine or_congr_right (exists_congr fun j => ?_)
  rw [h.present_page hL]
  refine and_congr_right fun hP => ?_
  rw [h.tables i hL, if_pos hP, entryAddr_userEntry (hm.aligned _ (h.slot_mem hP))]

theorem Built.cloneRollback (hm : Clear m w) (h : Built m w d g L s) (b : ℕ) :
    ∃ s', cloneRollback s d b = some s' ∧ ∀ a, a ∈ s'.free ↔ a ∈ s.free ∨ a = d ∨
      ∃ i : Fin 1024, (10 ≤ i.val ∧ i.val < 10 + b) ∧ .table i ∈ L ∧
        (a = g (.table i) ∨ ∃ j, .page i j ∈ L ∧ a = g (.page i j)) := by
  have hdw := hm.ne_window d h.directory_mem
  generalize his : ((finRange 1024).filter fun i => 10 ≤ i.val ∧ i.val < 10 + b) = is
  have hmem : ∀ i, i ∈ is ↔ 10 ≤ i.val ∧ i.val < 10 + b := by
    rw [← his]
    simp
  have h₁ : Built m w d g L (s.put w (ptIndex tempPdVirt) (shown d)) :=
    h.congr hm (h.wired.put h.wired.ne) rfl rfl fun f hf => mem_put_of_ne hf
  have hmap : mapPage s tempPdVirt d (pagePresent ||| pageWrite) =
      some (s.put w (ptIndex tempPdVirt) (shown d)) := h.wired.mapWindow (by decide)
  have hwin : (s.put w (ptIndex tempPdVirt) (shown d)).mem w (ptIndex tempPdVirt) = shown d := by
    rw [mem_put_self, update_self]
  have hfree₁ : (s.put w (ptIndex tempPdVirt) (shown d)).free = s.free := rfl
  generalize s.put w (ptIndex tempPdVirt) (shown d) = s₁ at h₁ hmap hwin hfree₁
  obtain ⟨s₂, hroll, hlooked, hfree₂⟩ := rollbackTables_spec h₁.wired hwin hdw is (by
    intro i hi hp
    have hL := (h₁.present_table ((hmem i).mp hi).1).mp hp
    rw [h₁.directory_eq hL, frame_userEntry]
    exact hm.ne_window _ (h₁.slot_mem hL))
  refine ⟨pmmFree (s₂.put w (ptIndex tempPdVirt) 0) d, ?_, fun a => ?_⟩
  · rw [Aevros.cloneRollback, if_neg (hm.ne_zero d h.directory_mem), hmap, his]
    simp only [Option.bind_eq_bind, Option.bind_some, hroll,
      hlooked.wired.unmapWindow (v := tempPdVirt) (by decide)]
    rfl
  · have hframes : ∀ a ∈ tableFrames s₁.mem (s₁.mem (frame d)) is ++ [d], a ∈ m.free := by
      intro a ha
      rcases mem_append.mp ha with ha | ha
      · obtain ⟨i, -, hL, rfl | ⟨j, hP, rfl⟩⟩ :=
          (h₁.mem_tableFrames hm fun i hi => ((hmem i).mp hi).1).mp ha
        · exact h₁.slot_mem hL
        · exact h₁.slot_mem hP
      · rw [mem_singleton.mp ha]
        exact h.directory_mem
    have hpool : Pool.Of m.free s.free := by
      refine ⟨?_, fun a ha => h.free_mem ha⟩
      have hnodup := hm.nodup
      rw [h.frames, nodup_cons, nodup_append] at hnodup
      exact hnodup.2.2.1
    have hall := foldl_freeFrame (fun a ha => ⟨hm.ne_zero a (hframes a ha),
      hm.aligned a (hframes a ha)⟩) s.free
    have hfinal : (pmmFree (s₂.put w (ptIndex tempPdVirt) 0) d).free =
        (tableFrames s₁.mem (s₁.mem (frame d)) is ++ [d]).foldl freeFrame s.free := by
      rw [foldl_append, ← hfree₁, ← hfree₂]
      rfl
    rw [hfinal, hall, (hpool.foldl_give hm.length_le hframes).2 a, mem_append,
      h₁.mem_tableFrames hm fun i hi => ((hmem i).mp hi).1, mem_singleton]
    simp only [hmem]
    rw [or_comm, or_comm (b := a = d)]

theorem built_start (hm : Clear m w) (hfree : m.free = d :: rest) (g : CopySlot → Word) :
    ∃ s₁ s₂ s₃, mapPage { m with free := rest } tempPdVirt d (pagePresent ||| pageWrite) = some s₁ ∧
      s₁.memset0 tempPdVirt = some s₂ ∧
      s₂.copyWords tempPdVirt pageRecursive kernelEntries = some s₃ ∧ Built m w d g [] s₃ ∧
      s₃.mem w (ptIndex tempPdVirt) = shown d := by
  have hd : d ∈ m.free := mem_free hfree
  have hdc := hm.ne_cr3 d hd
  have hdw := hm.ne_window d hd
  have hwired := hm.wired.withFree rest
  have hpd : pdIndex tempPdVirt = windowEntry := by decide
  set s₁ := ({ m with free := rest } : Machine).put w (ptIndex tempPdVirt) (shown d) with hs₁
  have hwired₁ : s₁.Wired w := hwired.put hwired.ne
  have hwin₁ : s₁.mem w (ptIndex tempPdVirt) = shown d := by
    rw [mem_put_self, update_self]
  have hset : s₁.memset0 tempPdVirt = some (s₁.setPage (frame d) fun _ => 0) := by
    refine memset0_eq (by decide) (hwired₁.pageAt_window hpd hwin₁) hdc ?_
    rw [hpd, hwired₁.window_frame]
    exact hdw
  set s₂ := s₁.setPage (frame d) fun _ => 0 with hs₂
  have hwired₂ : s₂.Wired w := hwired₁.setPage hdc
  have hwin₂ : s₂.mem w (ptIndex tempPdVirt) = shown d := by
    rw [mem_setPage_of_ne hdw.symm, hwin₁]
  have hcopy : s₂.copyWords tempPdVirt pageRecursive kernelEntries = some (s₂.setPage (frame d)
      (overwrite (s₂.mem (frame d)) (s₂.mem s₂.cr3) kernelEntries)) := by
    refine copyWords_eq (by decide) (by decide) hwired₂.toRecursive.pageAt_pageRecursive
      (hwired₂.pageAt_window hpd hwin₂) hdc ?_ ?_ _
    · have hself : pdIndex pageRecursive = selfEntry := by decide
      rw [hself, hwired₂.self_frame]
      exact hdc
    · rw [hpd, hwired₂.window_frame]
      exact hdw
  refine ⟨s₁, s₂, _, hwired.mapWindow hpd, hset, hcopy, ?_, ?_⟩
  · have hmem : ∀ f, f ≠ w → f ≠ frame d → s₂.mem f = m.mem f := by
      intro f hfw hfd
      rw [mem_setPage_of_ne hfd, mem_put_of_ne hfw]
    refine ⟨hwired₂.setPage hdc, rfl, hfree, fun f hfw hfd _ => ?_, fun i => ?_, nofun, nofun,
      nofun⟩
    · rw [mem_setPage_of_ne hfd]
      exact hmem f hfw hfd
    · have hcr3 : s₂.mem s₂.cr3 = m.mem m.cr3 := hmem _ hm.wired.ne.symm hdc.symm
      rw [mem_setPage_self, overwrite, hcr3, mem_setPage_self]
      simp only [mem_kernelEntries, not_mem_nil, if_false]
  · rw [mem_setPage_of_ne hdw.symm, hwin₂]

theorem table_mem_tableSlots :
    .table i ∈ tableSlots m is ↔ i ∈ is ∧ present (m.mem m.cr3 i) = true := by
  rw [tableSlots, mem_flatMap]
  constructor
  · rintro ⟨i', hi', hmem⟩
    split_ifs at hmem with hp
    · rcases mem_cons.mp hmem with heq | hmem
      · obtain rfl := CopySlot.table.inj heq
        exact ⟨hi', hp⟩
      · obtain ⟨j, heq⟩ := mem_pageSlots hmem
        cases heq
    · cases hmem
  · rintro ⟨hi, hp⟩
    exact ⟨i, hi, by rw [if_pos hp]; exact mem_cons_self⟩

theorem page_mem_tableSlots :
    .page i j ∈ tableSlots m is ↔ i ∈ is ∧ present (m.mem m.cr3 i) = true ∧
      present (m.mem (frame (m.mem m.cr3 i)) j) = true := by
  rw [tableSlots, mem_flatMap]
  constructor
  · rintro ⟨i', hi', hmem⟩
    split_ifs at hmem with hp
    · rcases mem_cons.mp hmem with heq | hmem
      · cases heq
      · obtain ⟨j', hj', heq⟩ := mem_map.mp hmem
        obtain ⟨rfl, rfl⟩ := CopySlot.page.inj heq
        exact ⟨hi', hp, (mem_filter.mp hj').2⟩
    · cases hmem
  · rintro ⟨hi, hp, hpj⟩
    refine ⟨i, hi, ?_⟩
    rw [if_pos hp]
    exact mem_cons_of_mem _ (mem_map_of_mem (mem_filter.mpr ⟨mem_finRange j, hpj⟩))

theorem nodup_tableSlots (his : is.Nodup) : (tableSlots m is).Nodup := by
  induction is with
  | nil => exact nodup_nil
  | cons i is ih =>
    obtain ⟨hi, his⟩ := nodup_cons.mp his
    by_cases hp : present (m.mem m.cr3 i) = true
    · rw [tableSlots_cons, if_pos hp, cons_append, nodup_cons, nodup_append]
      have hnodup : (pageSlots m i (finRange 1024)).Nodup :=
        ((nodup_finRange 1024).filter _).map fun _ _ h => (CopySlot.page.inj h).2
      refine ⟨fun hmem => ?_, hnodup, ih his, fun k hk k' hk' heq => ?_⟩
      · rcases mem_append.mp hmem with hmem | hmem
        · obtain ⟨j, heq⟩ := mem_pageSlots hmem
          cases heq
        · exact hi (table_mem_tableSlots.mp hmem).1
      · subst heq
        obtain ⟨j, rfl⟩ := mem_pageSlots hk
        exact hi (page_mem_tableSlots.mp hk').1
    · rw [tableSlots_cons, if_neg hp, nil_append]
      exact ih his

theorem exists_of_zip {α β : Type} [DecidableEq α] [Inhabited β] {l : List α} (hl : l.Nodup)
    (r : List β) : ∃ g : α → β, ∀ x ∈ l.zip r, g x.1 = x.2 := by
  induction l generalizing r with
  | nil => exact ⟨fun _ => default, nofun⟩
  | cons a l ih =>
    obtain ⟨ha, hl⟩ := nodup_cons.mp hl
    cases r with
    | nil => exact ⟨fun _ => default, nofun⟩
    | cons b r =>
      obtain ⟨g, hg⟩ := ih hl r
      refine ⟨update g a b, fun x hx => ?_⟩
      rcases mem_cons.mp hx with rfl | hx
      · exact update_self ..
      · have hne : x.1 ≠ a := fun heq => ha (heq ▸ (of_mem_zip hx).1)
        rw [update_of_ne hne]
        exact hg x hx

theorem clone_cases (hm : Clear m w) (hfree : m.free = d :: rest) :
    ∃ g s s', ((tableSlots m userEntries).length ≤ rest.length ∧
        Built m w d g (tableSlots m userEntries) s ∧ clonePageDirectory m = some (d, s') ∧
        Looked w (s.put (frame d) selfEntry (d ||| pagePresent ||| pageWrite)) s') ∨
      (rest.length < (tableSlots m userEntries).length ∧
        Built m w d g ((tableSlots m userEntries).take rest.length) s ∧
        cloneRollback s d (tableCount ((tableSlots m userEntries).take rest.length)) = some s' ∧
        clonePageDirectory m = some (0, s')) := by
  obtain ⟨g, hg⟩ := exists_of_zip (nodup_tableSlots (m := m) nodup_userEntries) rest
  obtain ⟨s₁, s₂, s₃, hmap, hset, hcopy, hbuilt, hwin⟩ := built_start hm hfree g
  have hd : d ∈ m.free := hbuilt.directory_mem
  have hfree₃ : s₃.free = rest := (cons.inj (hbuilt.frames.symm.trans hfree)).2
  have hcall : clonePageDirectory m = (cloneTables d userEntries 0 s₃).bind fun r =>
      if r.1 = true then
        (r.2.store (wordAddr tempPdVirt selfEntry) (d ||| pagePresent ||| pageWrite)).bind fun s =>
          (unmap s tempPdVirt).bind fun s => some (d, s)
      else some (0, r.2) := by
    rw [clonePageDirectory, pmmAlloc_cons hfree]
    simp only [if_neg (hm.ne_zero d hd), hmap, hset, hcopy, Option.bind_eq_bind, Option.bind_some]
    rfl
  have htables := hbuilt.cloneTables hm hwin userEntries (fun _ hi => hi) (hfree₃ ▸ hg)
  have hzero : tableCount [] = 0 := rfl
  simp only [hfree₃, hzero, nil_append] at htables
  rcases htables with ⟨hle, s, hrun, hb, hw⟩ | ⟨hlt, s, hb, hrun⟩
  · have hdc : frame d ≠ s.cr3 := hb.cr3 ▸ hm.ne_cr3 d hd
    have hwired := hb.wired.put (f := frame d) (i := selfEntry)
      (x := d ||| pagePresent ||| pageWrite) hdc
    refine ⟨g, s, _, .inl ⟨hle, hb, ?_,
      hwired.put (i := ptIndex tempPdVirt) (x := 0) hwired.ne, rfl,
      fun f hf => mem_put_of_ne hf⟩⟩
    have hstore := store_wordAddr (i := selfEntry) (x := d ||| pagePresent ||| pageWrite)
      (by decide) (hb.wired.pageAt_window (v := tempPdVirt) (by decide) hw)
    simp only [hcall, hrun, Option.bind_some, if_true, hstore,
      hwired.unmapWindow (v := tempPdVirt) (by decide)]
  · obtain ⟨s', hroll, -⟩ := hb.cloneRollback hm
      (tableCount ((tableSlots m userEntries).take rest.length))
    refine ⟨g, s, s', .inr ⟨hlt, hb, hroll, ?_⟩⟩
    simp only [hcall, hrun, hroll, Option.map_some, Option.bind_some, Bool.false_eq_true, if_false]

end Aevros.Copy
