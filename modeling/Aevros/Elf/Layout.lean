import Aevros.Elf.Plan

/-! # The space that was laid out

As long as no page lies in the last entry, the placements say all about the new space: which
tables it has, which frame every page is in, and what it holds.
-/

namespace Aevros

open List Machine Function Option

structure Laid (b : Machine) (d : Word) (L : List Placement) (a : Machine) : Prop
    extends SoundLoad b d L a where
  entries : ∀ i, startEntries i = false → a.mem (frame d) i = ((tableOf L i).map pageEntry).getD 0
  rows : ∀ i t, tableOf L i = some t → ∀ j, a.mem (frame t) j =
    ((lastOf L i j).map fun pl => pageEntry pl.phys).getD 0
  contents : ∀ pl ∈ L, a.mem (frame pl.phys) = pl.page
  table_inj : ∀ i j t u, tableOf L i = some t → tableOf L j = some u → frame t = frame u → i = j
  page_ne_table : ∀ pl ∈ L, ∀ i t, tableOf L i = some t → frame pl.phys ≠ frame t
  not_start : ∀ i t, tableOf L i = some t → startEntries i = false
  made : ∀ pl ∈ L, ∀ t, pl.made = some t → tableOf L (pdIndex pl.addr) = some t
  not_mapped : ∀ i, startEntries i = false → tableOf L i = none → ∀ pl ∈ L, ∀ j, ¬ pl.At i j

variable {a a' b : Machine} {w : ℕ} {d v p t x : Word} {page : Page} {rest : List Word}
  {i j : Fin 1024} {L : List Placement} {pl : Placement}

theorem mem_taken (hpl : pl ∈ L) : pl.phys ∈ taken L :=
  mem_flatMap.mpr ⟨pl, hpl, mem_cons_self⟩

theorem tableOf_mem (h : tableOf L i = some t) : t ∈ taken L := by
  obtain ⟨pl, hpl, hmade⟩ := exists_of_findSome?_eq_some h
  split_ifs at hmade
  refine mem_flatMap.mpr ⟨pl, hpl, mem_cons_of_mem _ ?_⟩
  rw [hmade]
  exact mem_cons_self

theorem Laid.nil (hb : NewSpace b w d) : Laid b d [] b where
  toSoundLoad := .nil b hb
  entries i hi := hb.rest i hi
  rows _ _ h := nomatch h
  contents _ h := nomatch h
  table_inj _ _ _ _ h := nomatch h
  page_ne_table _ h := nomatch h
  not_start _ _ h := nomatch h
  made _ h := nomatch h
  not_mapped _ _ _ _ h := nomatch h

theorem Laid.tableOf_of_present (h : Laid b d L a) (hi : startEntries i = false)
    (hp : present (a.mem (frame d) i) = true) :
    ∃ u, tableOf L i = some u ∧ frame (a.mem (frame d) i) = frame u := by
  rw [h.entries i hi] at hp ⊢
  cases hu : tableOf L i with
  | none =>
    rw [hu] at hp
    cases present_zero.symm.trans hp
  | some u => exact ⟨u, rfl, frame_pageEntry u⟩

theorem Laid.table_eq_iff (hb : NewSpace b w d) (h : Laid b d L a) (hi : i ≠ selfEntry)
    (hp : present (a.mem (frame d) i) = true) (ht : tableOf L j = some t) :
    frame t = frame (a.mem (frame d) i) ↔ j = i := by
  cases hs : startEntries i with
  | true =>
    have hlt : i.val < 10 := (of_decide_eq_true hs).resolve_right hi
    rw [h.start i hs]
    refine iff_of_false ((hb.kernel i hlt).2.2 t (h.taken_mem (tableOf_mem ht))) ?_
    rintro rfl
    rw [h.not_start j t ht] at hs
    cases hs
  | false =>
    obtain ⟨u, hu, hframe⟩ := h.tableOf_of_present hs hp
    rw [hframe]
    refine ⟨h.table_inj j i t u ht hu, ?_⟩
    rintro rfl
    rw [some.inj (ht.symm.trans hu)]

theorem Laid.page_ne_entry (hb : NewSpace b w d) (h : Laid b d L a) (hi : i ≠ selfEntry)
    (hp : present (a.mem (frame d) i) = true) (hpl : pl ∈ L) :
    frame pl.phys ≠ frame (a.mem (frame d) i) := by
  cases hs : startEntries i with
  | true =>
    have hlt : i.val < 10 := (of_decide_eq_true hs).resolve_right hi
    rw [h.start i hs]
    exact (hb.kernel i hlt).2.2 _ (h.taken_mem (mem_taken hpl))
  | false =>
    obtain ⟨u, hu, hframe⟩ := h.tableOf_of_present hs hp
    rw [hframe]
    exact h.page_ne_table pl hpl i u hu

theorem Laid.extend (h : Laid b d L a) (hsound : SoundLoad b d (L ++ [pl]) a')
    (hmade : pl.made = none) (hfresh : ∀ y ∈ taken L, frame pl.phys ≠ frame y)
    (hat : ∀ i j, pl.At i j → startEntries i = false → tableOf L i ≠ none)
    (hdir : a'.mem (frame d) = a.mem (frame d))
    (hrows : ∀ i t, tableOf L i = some t → ∀ j, a'.mem (frame t) j =
      if pl.At i j then pageEntry pl.phys else a.mem (frame t) j)
    (hpage : a'.mem (frame pl.phys) = pl.page)
    (hpages : ∀ pl ∈ L, a'.mem (frame pl.phys) = a.mem (frame pl.phys)) :
    Laid b d (L ++ [pl]) a' := by
  have htable : ∀ i, tableOf (L ++ [pl]) i = tableOf L i := by
    intro i
    rw [tableOf_append, hmade, ite_self, or_none]
  refine ⟨hsound, fun i hi => ?_, fun i t ht j => ?_, fun pl' hpl' => ?_, fun i j t u hi hj => ?_,
    fun pl' hpl' i t ht => ?_, fun i t ht => ?_, fun pl' hpl' t ht => ?_,
    fun i hi hnone pl' hpl' j => ?_⟩
  · rw [hdir, htable]
    exact h.entries i hi
  · rw [htable] at ht
    rw [hrows i t ht j]
    split_ifs with hat
    · rw [lastOf_append_of_at hat]
      rfl
    · rw [lastOf_append_of_not hat]
      exact h.rows i t ht j
  · rcases mem_append.mp hpl' with hold | hnew
    · rw [hpages pl' hold]
      exact h.contents pl' hold
    · rw [mem_singleton.mp hnew]
      exact hpage
  · rw [htable] at hi hj
    exact h.table_inj i j t u hi hj
  · rw [htable] at ht
    rcases mem_append.mp hpl' with hold | hnew
    · exact h.page_ne_table pl' hold i t ht
    · rw [mem_singleton.mp hnew]
      exact hfresh t (tableOf_mem ht)
  · rw [htable] at ht
    exact h.not_start i t ht
  · rw [htable]
    rcases mem_append.mp hpl' with hold | hnew
    · exact h.made pl' hold t ht
    · rw [mem_singleton.mp hnew, hmade] at ht
      cases ht
  · rw [htable] at hnone
    rcases mem_append.mp hpl' with hold | hnew
    · exact h.not_mapped i hi hnone pl' hold j
    · rw [mem_singleton.mp hnew]
      exact fun hpl => hat i j hpl hi hnone

section Step

variable (hb : NewSpace b w d) (h : Laid b d L a) (hfree : a.free = p :: rest)

include hb h hfree

theorem Laid.placeTable (hv : pdIndex v ≠ selfEntry)
    (hp : present (a.mem (frame d) (pdIndex v)) = true) :
    Laid b d (L ++ [⟨v, page, p, none, true⟩]) (placePage d v page p { a with free := rest }) := by
  obtain ⟨-, -, hfresh⟩ := h.fresh hb (mem_free hfree)
  refine h.extend (h.toSoundLoad.placeTable hb hfree hv hp) rfl hfresh ?_
    (h.directory_of_present hb hfree hv hp) (fun i t ht j => ?_) ?_ fun pl hpl => ?_
  · rintro i j ⟨-, rfl, -⟩ hi hnone
    obtain ⟨u, hu, -⟩ := h.tableOf_of_present hi hp
    cases hnone.symm.trans hu
  · rw [placePage_of_present hp, mem_setPage_of_ne (hfresh t (tableOf_mem ht)).symm]
    by_cases hiv : i = pdIndex v
    · rw [← (h.table_eq_iff hb hv hp ht).mpr hiv, mem_put_self]
      by_cases hj : j = ptIndex v
      · rw [hj, update_self, if_pos ⟨rfl, hiv.symm, rfl⟩]
      · rw [update_of_ne hj, if_neg fun hat => hj hat.2.2.symm]
    · rw [mem_put_of_ne (mt (h.table_eq_iff hb hv hp ht).mp hiv),
        if_neg fun hat => hiv hat.2.1.symm]
  · rw [placePage_of_present hp, mem_setPage_self]
  · rw [placePage_of_present hp, mem_setPage_of_ne (hfresh _ (mem_taken hpl)).symm,
      mem_put_of_ne (h.page_ne_entry hb hv hp hpl)]

theorem Laid.placeNone (hp : ¬ present (a.mem (frame d) (pdIndex v)) = true) (hrest : rest = []) :
    Laid b d (L ++ [⟨v, page, p, none, false⟩]) (placePage d v page p { a with free := [] }) := by
  obtain ⟨hpd, -, hfresh⟩ := h.fresh hb (mem_free hfree)
  refine h.extend (h.toSoundLoad.placeNone hb hfree hp hrest) rfl hfresh ?_ ?_
    (fun i t ht j => ?_) ?_ fun pl hpl => ?_
  · exact fun i j hat => absurd hat.1 Bool.false_ne_true
  · rw [placePage_of_nil hp, mem_setPage_of_ne hpd.symm]
  · rw [placePage_of_nil hp, mem_setPage_of_ne (hfresh t (tableOf_mem ht)).symm,
      if_neg fun hat => Bool.false_ne_true hat.1]
  · rw [placePage_of_nil hp, mem_setPage_self]
  · rw [placePage_of_nil hp, mem_setPage_of_ne (hfresh _ (mem_taken hpl)).symm]

theorem Laid.placeNew (hp : ¬ present (a.mem (frame d) (pdIndex v)) = true) {rest' : List Word}
    (hrest : rest = t :: rest') :
    Laid b d (L ++ [⟨v, page, p, some t, true⟩])
      (placePage d v page p { a with free := t :: rest' }) := by
  have hta : t ∈ a.free := mem_free_of_rest hfree (hrest ▸ mem_cons_self)
  obtain ⟨hpd, -, hfresh⟩ := h.fresh hb (mem_free hfree)
  obtain ⟨htd, -, hfresh'⟩ := h.fresh hb hta
  have hpt : frame p ≠ frame t := by
    have hnodup := hb.nodup
    rw [h.frames, hfree, hrest] at hnodup
    have hne := (nodup_cons.mp hnodup.of_append_right).1
    intro heq
    refine hne (eq_of_frame_eq (hb.aligned p ?_) (hb.aligned t ?_) heq ▸ mem_cons_self)
    · rw [h.frames]
      exact mem_append_right _ (mem_free hfree)
    · rw [h.frames]
      exact mem_append_right _ hta
  have hstart : startEntries (pdIndex v) = false :=
    Bool.eq_false_of_not_eq_true fun hs => hp (h.start_present hb hs)
  have hnone : tableOf L (pdIndex v) = none := by
    rw [h.entries _ hstart] at hp
    cases hu : tableOf L (pdIndex v) with
    | none => rfl
    | some u =>
      rw [hu] at hp
      exact absurd (present_pageEntry u) hp
  have htable : ∀ i, tableOf (L ++ [⟨v, page, p, some t, true⟩]) i =
      if i = pdIndex v then some t else tableOf L i := by
    intro i
    rw [tableOf_append]
    by_cases hi : i = pdIndex v
    · rw [hi, hnone, if_pos rfl]
      rfl
    · rw [if_neg hi, if_neg (Ne.symm hi), or_none]
  have hold : ∀ i u, tableOf (L ++ [⟨v, page, p, some t, true⟩]) i = some u →
      i = pdIndex v ∧ u = t ∨ i ≠ pdIndex v ∧ tableOf L i = some u := by
    intro i u hu
    rw [htable] at hu
    split_ifs at hu with hi
    · exact .inl ⟨hi, (some.inj hu).symm⟩
    · exact .inr ⟨hi, hu⟩
  refine ⟨h.toSoundLoad.placeNew hb hfree hp hrest, fun i hi => ?_, fun i u hu j => ?_,
    fun pl hpl => ?_, fun i j u u' hi hj heq => ?_, fun pl hpl i u hu => ?_, fun i u hu => ?_,
    fun pl hpl u hu => ?_, fun i hi hnone' pl hpl j hat => ?_⟩
  · rw [h.directory_of_absent hb hfree hp hrest, htable]
    by_cases hiv : i = pdIndex v
    · rw [hiv, update_self, if_pos rfl]
      rfl
    · rw [update_of_ne hiv, if_neg hiv]
      exact h.entries i hi
  · rcases hold i u hu with ⟨rfl, rfl⟩ | ⟨hne, hu⟩
    · rw [placePage_of_cons hp, mem_setPage_of_ne hpt.symm, mem_setPage_self]
      by_cases hj : j = ptIndex v
      · rw [hj, update_self, lastOf_append_of_at ⟨rfl, rfl, rfl⟩]
        rfl
      · have hlast : lastOf L (pdIndex v) j = none := by
          cases hl : lastOf L (pdIndex v) j with
          | none => rfl
          | some pl =>
            obtain ⟨hpl, hat⟩ := at_of_lastOf hl
            exact absurd hat (h.not_mapped _ hstart hnone pl hpl j)
        rw [update_of_ne hj, lastOf_append_of_not fun hat => hj hat.2.2.symm, hlast]
        rfl
    · have hmem := tableOf_mem hu
      have hud : frame u ≠ frame d := (hb.reach.free u (h.taken_mem hmem)).2.2.2
      rw [placePage_of_cons hp, mem_setPage_of_ne (hfresh u hmem).symm,
        mem_setPage_of_ne (hfresh' u hmem).symm, mem_put_of_ne hud,
        lastOf_append_of_not fun hat => hne hat.2.1.symm]
      exact h.rows i u hu j
  · rw [placePage_of_cons hp]
    rcases mem_append.mp hpl with hmem | hnew
    · have hud : frame pl.phys ≠ frame d :=
        (hb.reach.free _ (h.taken_mem (mem_taken hmem))).2.2.2
      rw [mem_setPage_of_ne (hfresh _ (mem_taken hmem)).symm,
        mem_setPage_of_ne (hfresh' _ (mem_taken hmem)).symm, mem_put_of_ne hud]
      exact h.contents pl hmem
    · rw [mem_singleton.mp hnew, mem_setPage_self]
  · rcases hold i u hi with ⟨rfl, rfl⟩ | ⟨hne, hu⟩
    · rcases hold j u' hj with ⟨rfl, -⟩ | ⟨-, hu'⟩
      · rfl
      · exact absurd heq (hfresh' u' (tableOf_mem hu'))
    · rcases hold j u' hj with ⟨-, rfl⟩ | ⟨-, hu'⟩
      · exact absurd heq.symm (hfresh' u (tableOf_mem hu))
      · exact h.table_inj i j u u' hu hu' heq
  · rcases mem_append.mp hpl with hmem | hnew
    · rcases hold i u hu with ⟨-, rfl⟩ | ⟨-, hu⟩
      · exact (hfresh' _ (mem_taken hmem)).symm
      · exact h.page_ne_table pl hmem i u hu
    · rw [mem_singleton.mp hnew]
      rcases hold i u hu with ⟨-, rfl⟩ | ⟨-, hu⟩
      · exact hpt
      · exact hfresh u (tableOf_mem hu)
  · rcases hold i u hu with ⟨rfl, -⟩ | ⟨-, hu⟩
    · exact hstart
    · exact h.not_start i u hu
  · rw [htable]
    rcases mem_append.mp hpl with hmem | hnew
    · have hold := h.made pl hmem u hu
      have hne : pdIndex pl.addr ≠ pdIndex v := by
        intro heq
        rw [heq, hnone] at hold
        cases hold
      rw [if_neg hne]
      exact hold
    · rw [mem_singleton.mp hnew] at hu ⊢
      rw [if_pos rfl]
      exact hu
  · rw [htable] at hnone'
    split_ifs at hnone' with hiv
    rcases mem_append.mp hpl with hmem | hnew
    · exact h.not_mapped i hi hnone' pl hmem j hat
    · rw [mem_singleton.mp hnew] at hat
      exact hiv hat.2.1.symm

theorem Laid.step {entries entries' : Fin 1024 → Bool} {free' : List Word}
    (he : ∀ i, entries i = present (a.mem (frame d) i))
    (hstep : Planned entries v page p rest pl entries' free') (hv : pdIndex v ≠ selfEntry) :
    Laid b d (L ++ [pl]) (placePage d v page p { a with free := rest }) := by
  cases hstep with
  | entered hE => exact h.placeTable hb hfree hv (he _ ▸ hE)
  | refused hE => exact h.placeNone hb hfree (he _ ▸ hE) rfl
  | made hE => exact h.placeNew hb hfree (he _ ▸ hE) rfl

end Step

variable {entries : Fin 1024 → Bool}

theorem Laid.place (hb : NewSpace b w d) (h : Laid b d L a)
    (he : ∀ i, entries i = present (a.mem (frame d) i)) (pages : List (Word × Page))
    (hself : ∀ pl ∈ plan entries a.free pages, pdIndex pl.addr ≠ selfEntry) :
    Laid b d (L ++ plan entries a.free pages) (place d pages a).2 ∧
      ((place d pages a).1 = true ↔ (plan entries a.free pages).length = pages.length) := by
  induction pages generalizing a L entries with
  | nil =>
    rw [plan, append_nil]
    exact ⟨h, iff_of_true rfl rfl⟩
  | cons vp pages ih =>
    obtain ⟨v, page⟩ := vp
    cases hfree : a.free with
    | nil =>
      rw [plan, place_nil hfree, append_nil]
      exact ⟨h, iff_of_false Bool.false_ne_true (Nat.succ_ne_zero _).symm⟩
    | cons p rest =>
      obtain ⟨pl, entries', free', hstep, hplan⟩ := plan_cons entries v page p rest pages
      obtain ⟨hfree', he'⟩ := h.planned hb hfree he hstep
      rw [hfree, hplan] at hself
      rw [place_of_cons _ hfree, hplan]
      have hv : pdIndex v ≠ selfEntry := hstep.page_eq.1 ▸ hself pl mem_cons_self
      have hnext := ih (h.step hb hfree he hstep hv) he' (by
        rw [hfree']
        exact fun pl hpl => hself pl (mem_cons_of_mem _ hpl))
      rw [hfree', append_assoc] at hnext
      exact ⟨hnext.1, hnext.2.trans Nat.succ_inj.symm⟩

theorem Laid.lastOf_eq_none (h : Laid b d L a) (hi : startEntries i = false)
    (hnone : tableOf L i = none) (j : Fin 1024) : lastOf L i j = none := by
  refine eq_none_iff_forall_ne_some.mpr fun pl hlast => ?_
  obtain ⟨hpl, hat⟩ := at_of_lastOf hlast
  exact h.not_mapped i hi hnone pl hpl j hat

theorem Laid.pageAt {win : Page} (h : Laid b d L a) (hreach : Reachable a w d)
    (hv : startEntries (pdIndex v) = false) :
    ((a.setPage w win).under (frame d)).pageAt v =
      (lastOf L (pdIndex v) (ptIndex v)).map fun pl => frame pl.phys := by
  have hdir : (a.setPage w win).mem (frame d) = a.mem (frame d) :=
    mem_setPage_of_ne hreach.directory.1
  have hentry := h.entries _ hv
  change (if present ((a.setPage w win).mem (frame d) (pdIndex v)) then _ else _) = _
  rw [hdir]
  cases ht : tableOf L (pdIndex v) with
  | none =>
    have habsent : ¬ present (a.mem (frame d) (pdIndex v)) = true := by
      rw [hentry, ht]
      decide
    rw [if_neg habsent, h.lastOf_eq_none hv ht]
    rfl
  | some t =>
    have hp : present (a.mem (frame d) (pdIndex v)) = true := by
      rw [hentry, ht]
      exact present_pageEntry t
    have hframe : frame (a.mem (frame d) (pdIndex v)) = frame t := by
      rw [hentry, ht]
      exact frame_pageEntry t
    have htw := (hreach.tables _ hp).1
    rw [if_pos hp]
    change (if present ((a.setPage w win).mem (frame ((a.setPage w win).mem (frame d)
      (pdIndex v))) (ptIndex v)) then some (frame ((a.setPage w win).mem (frame ((a.setPage w
        win).mem (frame d) (pdIndex v))) (ptIndex v))) else none) = _
    rw [hdir, mem_setPage_of_ne htw, hframe, h.rows _ t ht]
    cases lastOf L (pdIndex v) (ptIndex v) with
    | none => rfl
    | some pl =>
      change (if present (pageEntry pl.phys) then some (frame (pageEntry pl.phys)) else none) = _
      rw [if_pos (present_pageEntry _), frame_pageEntry]
      rfl

theorem Laid.loadByte {win : Page} (hb : NewSpace b w d) (h : Laid b d L a)
    (hreach : Reachable a w d) (hv : startEntries (pdIndex v) = false) :
    ((a.setPage w win).under (frame d)).loadByte v =
      (lastOf L (pdIndex v) (ptIndex v)).map fun pl => pageByte pl.page (byteIndex v) := by
  rw [Machine.loadByte, h.pageAt hreach hv, Option.map_map]
  refine Option.map_congr fun pl hlast => ?_
  have hpl := (at_of_lastOf hlast).1
  have hne : frame pl.phys ≠ w := (hb.reach.free _ (h.taken_mem (mem_taken hpl))).2.1
  change pageByte ((a.setPage w win).mem (frame pl.phys)) (byteIndex v) = _
  rw [mem_setPage_of_ne hne, h.contents pl hpl]

end Aevros
