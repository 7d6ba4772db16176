import Aevros.Elf.Layout
import Aevros.Guarantees.Programs

/-! # Teardown of a space

`destroy_user_space` walks over the tables of the user part and frees what it finds. It finds
every frame that the loader took exactly if every page was entered, in the user part, and
only once.
-/

namespace Aevros

open List Machine

variable {m a b : Machine} {w : ℕ} {d t x : Word} {win : Page} {file : ElfFile}
  {P : List Placement} {pl pl' : Placement} {i j : Fin 1024}

/-- `create_user_space`, `elf_load_segs` with any result, `destroy_user_space`. -/
def loadAndDestroy (m : Machine) (file : ElfFile) : Option Machine := do
  let (d, s) ← createUserSpace m
  let (_, s) ← elfLoadSegs file d s
  destroyUserSpace s d

def GivesBack (m : Machine) (file : ElfFile) : Prop :=
  ∃ s, loadAndDestroy m file = some s ∧ ∀ x, x ∈ s.free ↔ x ∈ m.free

def Placement.spot (pl : Placement) : Fin 1024 × Fin 1024 := (pdIndex pl.addr, ptIndex pl.addr)

/-- Every page is entered, in the user part, and none twice. -/
def Reclaimed (P : List Placement) : Prop :=
  (∀ pl ∈ P, pl.mapped = true ∧ pdIndex pl.addr ∈ userEntries) ∧ (P.map Placement.spot).Nodup

def Reclaimable (m : Machine) (file : ElfFile) : Prop :=
  m.free = [] ∨ present (m.mem m.cr3 windowEntry) = true ∧ Reclaimed (landings m file)

def Found (P : List Placement) (x : Word) : Prop :=
  ∃ i ∈ userEntries, (∃ t, tableOf P i = some t ∧ (x = t ∨ ∃ j pl, lastOf P i j = some pl ∧
    x = pl.phys))

theorem not_startEntries (hi : i ∈ userEntries) : startEntries i = false := by
  have hge := (mem_userEntries.mp hi).1
  exact decide_eq_false (not_or.mpr ⟨by omega, ne_selfEntry hi⟩)

theorem entryAddr_pageEntry (h : 4096 ∣ x.toNat) : entryAddr (pageEntry x) = x := by
  rw [pageEntry, entryAddr_or _ (by decide), entryAddr_or _ toNat_userFlags_lt, entryAddr_eq_self h]

theorem Laid.mem_tableFrames (hb : NewSpace b w d) (h : Laid b d P a) :
    x ∈ tableFrames a.mem (a.mem (frame d)) userEntries ↔ Found P x := by
  rw [Aevros.mem_tableFrames]
  refine exists_congr fun i => and_congr_right fun hi => ?_
  rw [h.entries i (not_startEntries hi)]
  cases ht : tableOf P i with
  | none => exact iff_of_false (fun h => absurd h.1 (by decide)) fun ⟨t, ht, _⟩ => by cases ht
  | some t =>
    have hrows := h.rows i t ht
    have haligned : ∀ y ∈ taken P, 4096 ∣ y.toNat := fun y hy => hb.aligned y (h.taken_mem hy)
    change present (pageEntry t) = true ∧ (x = entryAddr (pageEntry t) ∨
      ∃ j, present (a.mem (frame (pageEntry t)) j) = true ∧
        x = entryAddr (a.mem (frame (pageEntry t)) j)) ↔ _
    rw [frame_pageEntry, entryAddr_pageEntry (haligned t (tableOf_mem ht))]
    have hpage : ∀ j, present (a.mem (frame t) j) = true ∧ x = entryAddr (a.mem (frame t) j) ↔
        ∃ pl, lastOf P i j = some pl ∧ x = pl.phys := by
      intro j
      rw [hrows j]
      cases hlast : lastOf P i j with
      | none => exact iff_of_false (fun h => absurd h.1 (by decide)) fun ⟨_, h, _⟩ => by cases h
      | some pl =>
        change present (pageEntry pl.phys) = true ∧ x = entryAddr (pageEntry pl.phys) ↔ _
        rw [entryAddr_pageEntry (haligned _ (mem_taken (at_of_lastOf hlast).1))]
        simp
    simp only [hpage]
    simp

theorem Laid.destroyable (hb : NewSpace b w d) (h : Laid b d P a) (hreach : Reachable a w d) :
    Destroyable a w d userEntries := by
  refine ⟨hreach.wired, hreach.directory, fun i hi hp => ?_, fun i hi j hj hpi hpj heq => ?_⟩
  · exact ⟨(hreach.tables i hp).1, (hreach.tables i hp).2, h.table_ne hb (ne_selfEntry hi) hp⟩
  · obtain ⟨t, ht, hentry⟩ := h.tableOf_of_present (not_startEntries hi) hpi
    rw [hentry] at heq
    exact (h.table_eq_iff hb (ne_selfEntry hj) hpj ht).mp heq

theorem Laid.destroyUserSpace (hb : NewSpace b w d) (h : Laid b d P a) (hreach : Reachable a w d)
    {M : List Word} (hM : ∀ x ∈ d :: b.free, x ∈ M) (hlen : M.length ≤ maxFrames)
    (hne : ∀ x ∈ M, x ≠ 0 ∧ 4096 ∣ x.toNat) :
    ∃ s, destroyUserSpace (a.setPage w win) d = some s ∧
      ∀ x, x ∈ s.free ↔ x ∈ a.free ∨ x = d ∨ Found P x := by
  have hd0 : d ≠ 0 := (hne d (hM d mem_cons_self)).1
  obtain ⟨s, hcall, hfree⟩ : ∃ s, Aevros.destroyUserSpace (a.setPage w win) d = some s ∧ _ :=
    destroyUserSpace_spec (h.destroyable hb hreach) hd0
  refine ⟨s, hcall, fun x => ?_⟩
  have htaken : ∀ x ∈ taken P, x ∈ M := fun x hx =>
    hM x (mem_cons_of_mem _ (h.taken_mem hx))
  have hfreed : ∀ x ∈ tableFrames a.mem (a.mem (frame d)) userEntries ++ [d], x ∈ M := by
    intro x hx
    rcases mem_append.mp hx with hx | hx
    · obtain ⟨i, -, t, ht, rfl | ⟨j, pl, hlast, rfl⟩⟩ := (h.mem_tableFrames hb).mp hx
      · exact htaken _ (tableOf_mem ht)
      · exact htaken _ (mem_taken (at_of_lastOf hlast).1)
    · rw [mem_singleton.mp hx]
      exact hM d mem_cons_self
  have hpool : Pool.Of M a.free := by
    constructor
    · have hnodup := hb.nodup
      rw [h.frames] at hnodup
      exact hnodup.of_append_right
    · intro x hx
      refine hM x (mem_cons_of_mem _ ?_)
      rw [h.frames]
      exact mem_append_right _ hx
  rw [hfree, foldl_freeFrame fun x hx => hne x (hfreed x hx),
    (hpool.foldl_give hlen hfreed).2 x, mem_append, h.mem_tableFrames hb, mem_singleton]
  tauto

theorem map_phys_sublist (P : List Placement) : (P.map Placement.phys).Sublist (taken P) := by
  induction P with
  | nil => exact .slnil
  | cons pl P ih =>
    exact (ih.trans (sublist_append_right _ _)).cons_cons _

theorem Laid.nodup_phys (hb : NewSpace b w d) (h : Laid b d P a) :
    (P.map Placement.phys).Nodup := by
  have hnodup := hb.nodup
  rw [h.frames] at hnodup
  exact hnodup.of_append_left.sublist (map_phys_sublist P)

theorem Laid.found_phys_iff (hb : NewSpace b w d) (h : Laid b d P a) (hpl : pl ∈ P) :
    Found P pl.phys ↔ pdIndex pl.addr ∈ userEntries ∧ pl.mapped = true ∧
      lastOf P (pdIndex pl.addr) (ptIndex pl.addr) = some pl := by
  constructor
  · rintro ⟨i, hi, t, ht, heq | ⟨j, pl', hlast, heq⟩⟩
    · exact absurd (congrArg frame heq) (h.page_ne_table pl hpl i t ht)
    · obtain ⟨hpl', hmapped, rfl, rfl⟩ := at_of_lastOf hlast
      obtain rfl := inj_on_of_nodup_map (h.nodup_phys hb) hpl hpl' heq
      exact ⟨hi, hmapped, hlast⟩
  · rintro ⟨hi, hmapped, hlast⟩
    have htable : tableOf P (pdIndex pl.addr) ≠ none := fun hnone =>
      h.not_mapped _ (not_startEntries hi) hnone pl hpl _ ⟨hmapped, rfl, rfl⟩
    obtain ⟨t, ht⟩ := Option.ne_none_iff_exists'.mp htable
    exact ⟨_, hi, t, ht, .inr ⟨_, pl, hlast, rfl⟩⟩

theorem exists_lastOf (hpl : pl ∈ P) (hat : pl.At i j) : ∃ pl', lastOf P i j = some pl' := by
  refine Option.ne_none_iff_exists'.mp fun hnone => ?_
  rw [lastOf, getLast?_eq_none_iff] at hnone
  have hmem : pl ∈ P.filter fun pl => pl.At i j :=
    mem_filter.mpr ⟨hpl, decide_eq_true hat⟩
  rw [hnone] at hmem
  cases hmem

theorem Laid.all_found_iff (hb : NewSpace b w d) (h : Laid b d P a) :
    (∀ x ∈ taken P, Found P x) ↔ Reclaimed P := by
  have hphys := h.nodup_phys hb
  have hP : P.Nodup := hphys.of_map
  constructor
  · intro hall
    have hpl : ∀ pl ∈ P, _ := fun pl hpl =>
      (h.found_phys_iff hb hpl).mp (hall _ (mem_taken hpl))
    refine ⟨fun pl hp => ⟨(hpl pl hp).2.1, (hpl pl hp).1⟩,
      (nodup_map_iff_inj_on hP).mpr fun pl hp pl' hp' heq => ?_⟩
    obtain ⟨hpd, hpt⟩ := Prod.mk.inj heq
    have hlast := (hpl pl hp).2.2
    rw [hpd, hpt, (hpl pl' hp').2.2] at hlast
    exact (Option.some.inj hlast).symm
  · rintro ⟨hall, hnodup⟩ x hx
    obtain ⟨pl, hpl, hx⟩ := mem_flatMap.mp hx
    obtain ⟨hmapped, huser⟩ := hall pl hpl
    rcases mem_cons.mp hx with rfl | hmade
    · refine (h.found_phys_iff hb hpl).mpr ⟨huser, hmapped, ?_⟩
      obtain ⟨pl', hlast⟩ := exists_lastOf hpl ⟨hmapped, rfl, rfl⟩
      obtain ⟨hpl', -, hpd, hpt⟩ := at_of_lastOf hlast
      rw [hlast, inj_on_of_nodup_map hnodup hpl' hpl (Prod.ext hpd hpt)]
    · have hsome : pl.made = some x := by simpa using hmade
      exact ⟨_, huser, x, h.made pl hpl x hsome, .inl rfl⟩

theorem loadAndDestroy_of_nil (h : m.free = []) : loadAndDestroy m file = some m := by
  rw [loadAndDestroy, createUserSpace_nil h]
  simp only [Option.bind_eq_bind, Option.bind_some, elfLoadSegs_zero]
  rfl

theorem loadAndDestroy_spec (h : m.Booted) (hc : Created m d w b)
    (hcall : createUserSpace m = some (d, b.setPage w win))
    (hself : ∀ pl ∈ landings m file, pdIndex pl.addr ≠ selfEntry) :
    ∃ a s, Laid b d (landings m file) a ∧ loadAndDestroy m file = some s ∧
      ∀ x, x ∈ s.free ↔ x ∈ a.free ∨ x = d ∨ Found (landings m file) x := by
  have hb := hc.space
  have hlaid : Laid b d (landings m file) (place d (imagePages file) b).2 := by
    rw [landings, ← hc.free_eq] at hself ⊢
    exact ((Laid.nil hb).place hb (startEntries_eq hb) _ hself).1
  obtain ⟨win', hload⟩ : ∃ win', elfLoadSegs file d (b.setPage w win) = _ :=
    elfLoadSegs_spec hb.reach (h.ne_zero d hc.directory_mem)
  have hM : ∀ x ∈ d :: b.free, x ∈ m.free := by
    intro x hx
    rcases hc.stack with ⟨-, hfree⟩ | ⟨-, t, hfree⟩
    · rwa [hfree]
    · exact mem_rest hfree hx
  obtain ⟨s, hdestroy, hfree⟩ : ∃ s, destroyUserSpace ((place d (imagePages file) b).2.setPage w
      win') d = some s ∧ _ := hlaid.destroyUserSpace hb (hb.reach.place _) hM h.length_le
    fun x hx => ⟨h.ne_zero x hx, h.aligned x hx⟩
  refine ⟨_, s, hlaid, ?_, hfree⟩
  rw [loadAndDestroy, hcall]
  simp only [Option.bind_eq_bind, Option.bind_some, hload]
  exact hdestroy

theorem givesBack_iff_of_created (h : m.Booted) (hc : Created m d w b)
    (hcall : createUserSpace m = some (d, b.setPage w win))
    (hself : ∀ pl ∈ landings m file, pdIndex pl.addr ≠ selfEntry) :
    GivesBack m file ↔ present (m.mem m.cr3 windowEntry) = true ∧ Reclaimed (landings m file) := by
  obtain ⟨a, s, hlaid, hrun, hfree⟩ := loadAndDestroy_spec h hc hcall hself
  have hgives : GivesBack m file ↔ ∀ x, x ∈ s.free ↔ x ∈ m.free := by
    constructor
    · rintro ⟨s', hrun', hs'⟩
      cases hrun.symm.trans hrun'
      exact hs'
    · exact fun hs => ⟨s, hrun, hs⟩
  rw [hgives]
  rcases hc.stack with ⟨hw, hstack⟩ | ⟨hw, t, hstack⟩
  · rw [and_iff_right hw, ← hlaid.all_found_iff hc.space]
    have hmem : ∀ x, x ∈ m.free ↔ x = d ∨ x ∈ taken (landings m file) ∨ x ∈ a.free := by
      intro x
      rw [hstack, hlaid.frames, mem_cons, mem_append]
    constructor
    · intro hall x hx
      have hfresh := h.nodup
      rw [hstack, hlaid.frames, nodup_cons, mem_append, not_or] at hfresh
      rcases (hfree x).mp ((hall x).mpr ((hmem x).mpr (.inr (.inl hx)))) with ha | rfl | hfound
      · exact absurd ha (disjoint_of_nodup_append hfresh.2 hx)
      · exact absurd hx hfresh.1.1
      · exact hfound
    · intro hall x
      rw [hfree, hmem]
      constructor
      · rintro (ha | hd | ⟨i, -, t, ht, rfl | ⟨j, pl, hlast, rfl⟩⟩)
        · exact .inr (.inr ha)
        · exact .inl hd
        · exact .inr (.inl (tableOf_mem ht))
        · exact .inr (.inl (mem_taken (at_of_lastOf hlast).1))
      · rintro (hd | hx | ha)
        · exact .inr (.inl hd)
        · exact .inr (.inr (hall x hx))
        · exact .inl ha
  · refine iff_of_false (fun hall => ?_) fun hand => Bool.false_ne_true (hw.symm.trans hand.1)
    have hnot := h.window_not_mem hstack
    rw [hlaid.frames, mem_cons, mem_append, not_or, not_or] at hnot
    rcases (hfree t).mp ((hall t).mpr (window_mem hstack)) with ha | hd |
      ⟨i, -, u, hu, rfl | ⟨j, pl, hlast, rfl⟩⟩
    · exact hnot.2.2 ha
    · exact hnot.1 hd
    · exact hnot.2.1 (tableOf_mem hu)
    · exact hnot.2.1 (mem_taken (at_of_lastOf hlast).1)

theorem givesBack_iff_of_ne_self (h : m.Booted)
    (hself : ∀ pl ∈ landings m file, pdIndex pl.addr ≠ selfEntry) :
    GivesBack m file ↔ Reclaimable m file := by
  rcases h.create_cases with ⟨hfree, -⟩ | ⟨hcall, hw, hlen⟩ | ⟨d, w, b, win, hcall, hc⟩
  · exact iff_of_true ⟨m, loadAndDestroy_of_nil hfree, fun _ => Iff.rfl⟩ (.inl hfree)
  · refine iff_of_false ?_ ?_
    · rintro ⟨s, hrun, -⟩
      rw [loadAndDestroy, hcall] at hrun
      cases hrun
    · rintro (hfree | ⟨hw', -⟩)
      · rw [hfree] at hlen
        cases hlen
      · exact Bool.false_ne_true (hw.symm.trans hw')
  · have hne : m.free ≠ [] := ne_nil_of_mem hc.directory_mem
    rw [givesBack_iff_of_created h hc hcall hself, Reclaimable, or_iff_right hne]

/-- All frames come back if every page is entered once; else some do not. -/
theorem teardown_gives_back (h : m.Booted) : (Reclaimable m file → GivesBack m file) ∧
    ((∀ pl ∈ landings m file, pdIndex pl.addr ≠ selfEntry) →
      GivesBack m file → Reclaimable m file) := by
  refine ⟨fun hr => ?_, fun hself => (givesBack_iff_of_ne_self h hself).mp⟩
  rcases hr with hfree | ⟨hw, hall, hnodup⟩
  · exact ⟨m, loadAndDestroy_of_nil hfree, fun _ => Iff.rfl⟩
  · refine (givesBack_iff_of_ne_self h fun pl hpl => ?_).mpr (.inr ⟨hw, hall, hnodup⟩)
    exact ne_selfEntry (hall pl hpl).2

theorem onePage_given_back :
    GivesBack (bootMachine [0x200000, 0x201000, 0x202000]) (onePage 0x40000000) := by
  have hbooted : (bootMachine [0x200000, 0x201000, 0x202000]).Booted :=
    bootMachine_booted (by decide) (by decide) (by simp [frame])
  have hwindow : present (bootDirectory windowEntry) = true := by decide +kernel
  refine (teardown_gives_back hbooted).1 (.inr ⟨hwindow, ?_⟩)
  refine ⟨fun pl hpl => ?_, nodup_singleton _⟩
  obtain rfl := mem_singleton.mp hpl
  have hrange : 10 ≤ (pdIndex 0x40000000).val ∧ (pdIndex 0x40000000).val < 768 := by decide
  exact ⟨rfl, mem_userEntries.mpr hrange⟩

def sharedPage : ElfFile :=
  elfFile [phdrWords 116 0x40000000 4 256, phdrWords 120 0x40000800 4 256] [0x11111111, 0x22222222]

theorem sharedPage_lost : (bootMachine [0x200000, 0x201000, 0x202000, 0x203000]).Booted ∧
      ¬ GivesBack (bootMachine [0x200000, 0x201000, 0x202000, 0x203000]) sharedPage := by
  have hbooted : (bootMachine [0x200000, 0x201000, 0x202000, 0x203000]).Booted :=
    bootMachine_booted (by decide) (by decide) (by simp [frame])
  refine ⟨hbooted, fun hgives => ?_⟩
  rw [givesBack_iff_of_ne_self hbooted] at hgives
  · rcases hgives with hfree | ⟨-, -, hnodup⟩
    · cases hfree
    · exact (nodup_cons.mp hnodup).1 mem_cons_self
  · have haddrs : (landings (bootMachine [0x200000, 0x201000, 0x202000, 0x203000])
        sharedPage).map Placement.addr = [0x40000000, 0x40000000] := by decide +kernel
    intro pl hpl
    have haddr := mem_map_of_mem (f := Placement.addr) hpl
    rw [haddrs, mem_cons, mem_singleton, or_self] at haddr
    rw [haddr]
    decide

end Aevros
