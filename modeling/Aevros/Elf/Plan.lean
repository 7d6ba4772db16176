import Aevros.Elf.Placement

/-! # Which frame each page gets

Frames come from the top of the stack, one for each page and one for each missing table, so the
file, the directory and the stack say which page gets which.
-/

namespace Aevros

open List Machine Function

/-- One page: its frame, that of a table made for it, and whether it is entered in the end. -/
structure Placement where
  addr : Word
  page : Page
  phys : Word
  made : Option Word
  mapped : Bool

def Placement.frames (pl : Placement) : List Word := pl.phys :: pl.made.toList

def Placement.At (pl : Placement) (i j : Fin 1024) : Prop :=
  pl.mapped = true ∧ pdIndex pl.addr = i ∧ ptIndex pl.addr = j

instance (pl : Placement) (i j : Fin 1024) : Decidable (pl.At i j) :=
  inferInstanceAs (Decidable (_ ∧ _ ∧ _))

def startEntries (i : Fin 1024) : Bool := i.val < 10 ∨ i = selfEntry

def plan : (Fin 1024 → Bool) → List Word → List (Word × Page) → List Placement
  | _, _, [] => []
  | _, [], _ :: _ => []
  | entries, p :: free, (v, page) :: pages =>
    if entries (pdIndex v) then
      let entries :=
        if pdIndex v = selfEntry then update entries (ptIndex v) true else entries
      ⟨v, page, p, none, true⟩ :: plan entries free pages
    else
      match free with
      | [] => [⟨v, page, p, none, false⟩]
      | t :: free =>
        ⟨v, page, p, some t, true⟩ :: plan (update entries (pdIndex v) true) free pages

section Plan

variable {entries : Fin 1024 → Bool} {v p t : Word} {page : Page} {free : List Word}
  {pages : List (Word × Page)}

theorem plan_nil (pages : List (Word × Page)) : plan entries [] pages = [] := by
  cases pages <;> rw [plan]

/-- A page gets the frame `p`: its placement, and the entries and the frames afterwards. -/
inductive Planned (entries : Fin 1024 → Bool) (v : Word) (page : Page) (p : Word) :
    List Word → Placement → (Fin 1024 → Bool) → List Word → Prop
  | entered {free : List Word} (h : entries (pdIndex v) = true) :
    Planned entries v page p free ⟨v, page, p, none, true⟩
      (if pdIndex v = selfEntry then update entries (ptIndex v) true else entries) free
  | refused (h : ¬ entries (pdIndex v) = true) :
    Planned entries v page p [] ⟨v, page, p, none, false⟩ entries []
  | made {t : Word} {free : List Word} (h : ¬ entries (pdIndex v) = true) :
    Planned entries v page p (t :: free) ⟨v, page, p, some t, true⟩
      (update entries (pdIndex v) true) free

theorem plan_cons (entries : Fin 1024 → Bool) (v : Word) (page : Page) (p : Word)
    (free : List Word) (pages : List (Word × Page)) : ∃ pl entries' free',
      Planned entries v page p free pl entries' free' ∧
        plan entries (p :: free) ((v, page) :: pages) = pl :: plan entries' free' pages := by
  by_cases hE : entries (pdIndex v) = true
  · refine ⟨_, _, _, .entered hE, ?_⟩
    cases free <;> rw [plan, if_pos hE]
  · cases free with
    | nil =>
      refine ⟨_, _, _, .refused hE, ?_⟩
      rw [plan, if_neg hE, plan_nil]
    | cons t free =>
      refine ⟨_, _, _, .made hE, ?_⟩
      rw [plan, if_neg hE]

section Planned

variable {pl pl' : Placement} {entries' : Fin 1024 → Bool} {free' : List Word} {i : Fin 1024}

theorem update_true {k : Fin 1024} (h : entries i = true) : update entries k true i = true := by
  by_cases hi : i = k
  · rw [hi, update_self]
  · rw [update_of_ne hi, h]

section

variable (h : Planned entries v page p free pl entries' free') {L : List Placement}

include h

theorem Planned.page_eq : pl.addr = v ∧ pl.page = page := by
  cases h <;> exact ⟨rfl, rfl⟩

theorem Planned.keeps (hi : entries i = true) : entries' i = true := by
  cases h with
  | entered =>
    split
    · exact update_true hi
    · exact hi
  | refused => exact hi
  | made => exact update_true hi

theorem Planned.mapped (hv : entries (pdIndex v) = true) : pl.mapped = true := by
  cases h with
  | entered | made => rfl
  | refused hE => exact absurd hv hE

theorem Planned.entry (hpl : pl.mapped = true) : entries' (pdIndex v) = true := by
  cases h with
  | entered hE =>
    split
    · exact update_true hE
    · exact hE
  | refused => cases hpl
  | made => exact update_self ..

theorem Planned.mapped_of_mem (hpl' : pl' ∈ plan entries' free' pages) : pl.mapped = true := by
  cases h with
  | entered | made => rfl
  | refused =>
    rw [plan_nil] at hpl'
    cases hpl'

end

end Planned

theorem plan_isPrefix (entries : Fin 1024 → Bool) (free : List Word) (pages : List (Word × Page)) :
    (plan entries free pages).map (fun pl => (pl.addr, pl.page)) <+: pages := by
  induction pages generalizing entries free with
  | nil =>
    rw [plan]
    exact nil_prefix
  | cons vp pages ih =>
    cases free with
    | nil =>
      exact nil_prefix
    | cons p free =>
      obtain ⟨pl, entries', free', hstep, heq⟩ := plan_cons entries vp.1 vp.2 p free pages
      obtain ⟨haddr, hpage⟩ := hstep.page_eq
      rw [heq, map_cons, haddr, hpage]
      exact cons_prefix_cons.mpr ⟨rfl, ih _ _⟩

theorem mapped_of_entry {i : Fin 1024} (h : entries i = true) :
    ∀ pl ∈ plan entries free pages, pdIndex pl.addr = i → pl.mapped = true := by
  induction pages generalizing entries free with
  | nil =>
    rw [plan]
    exact nofun
  | cons vp pages ih =>
    cases free with
    | nil =>
      exact nofun
    | cons p free =>
      obtain ⟨pl, entries', free', hstep, heq⟩ := plan_cons entries vp.1 vp.2 p free pages
      rw [heq]
      rintro pl' (_ | ⟨_, hpl'⟩) hi
      · rw [hstep.page_eq.1] at hi
        exact hstep.mapped (hi ▸ h)
      · exact ih (hstep.keeps h) pl' hpl' hi

theorem mapped_of_mapped {pl pl' : Placement} (hpl : pl ∈ plan entries free pages)
    (hpl' : pl' ∈ plan entries free pages) (heq : pdIndex pl.addr = pdIndex pl'.addr)
    (h : pl'.mapped = true) : pl.mapped = true := by
  induction pages generalizing entries free with
  | nil =>
    rw [plan] at hpl
    cases hpl
  | cons vp pages ih =>
    cases free with
    | nil =>
      cases hpl
    | cons p free =>
      obtain ⟨first, entries', free', hstep, hplan⟩ := plan_cons entries vp.1 vp.2 p free pages
      rw [hplan] at hpl hpl'
      rcases mem_cons.mp hpl' with rfl | hmem'
      · rcases mem_cons.mp hpl with rfl | hmem
        · exact h
        · exact mapped_of_entry (hstep.page_eq.1 ▸ hstep.entry h) pl hmem heq
      · rcases mem_cons.mp hpl with rfl | hmem
        · exact hstep.mapped_of_mem hmem'
        · exact ih hmem hmem'

end Plan

def lastOf (L : List Placement) (i j : Fin 1024) : Option Placement :=
  (L.filter fun pl => pl.At i j).getLast?

def tableOf (L : List Placement) (i : Fin 1024) : Option Word :=
  L.findSome? fun pl => if pdIndex pl.addr = i then pl.made else none

def pageEntry (p : Word) : Word := p ||| userFlags ||| pagePresent

@[simp] theorem frame_pageEntry (p : Word) : frame (pageEntry p) = frame p :=
  frame_entry toNat_userFlags_lt

@[simp] theorem present_pageEntry (p : Word) : present (pageEntry p) = true := by
  rw [pageEntry, present_or]
  exact Bool.or_true _

theorem lastOf_append_of_at {pl : Placement} {i j : Fin 1024} (h : pl.At i j) :
    lastOf (L ++ [pl]) i j = some pl := by
  have hfilter : [pl].filter (fun pl => decide (pl.At i j)) = [pl] := by simp [h]
  rw [lastOf, filter_append, hfilter, getLast?_concat]

theorem lastOf_append_of_not {pl : Placement} {i j : Fin 1024} (h : ¬ pl.At i j) :
    lastOf (L ++ [pl]) i j = lastOf L i j := by
  have hfilter : [pl].filter (fun pl => decide (pl.At i j)) = [] := by simp [h]
  rw [lastOf, filter_append, hfilter, append_nil, lastOf]

theorem at_of_lastOf {pl : Placement} {i j : Fin 1024} (h : lastOf L i j = some pl) :
    pl ∈ L ∧ pl.At i j := by
  obtain ⟨hmem, hat⟩ := mem_filter.mp (mem_of_getLast? h)
  exact ⟨hmem, of_decide_eq_true hat⟩

theorem tableOf_append (L : List Placement) (pl : Placement) (i : Fin 1024) :
    tableOf (L ++ [pl]) i = (tableOf L i).or (if pdIndex pl.addr = i then pl.made else none) := by
  rw [tableOf, findSome?_append, tableOf, findSome?_singleton]

section

variable {a b : Machine} {w : ℕ} {d v p t : Word} {page : Page} {rest : List Word}
  {i j : Fin 1024} {L : List Placement} {entries : Fin 1024 → Bool}

theorem placePage_of_present (hp : present (a.mem (frame d) (pdIndex v)) = true) :
    placePage d v page p { a with free := rest } =
      (({ a with free := rest } : Machine).put (frame (a.mem (frame d) (pdIndex v))) (ptIndex v)
        (pageEntry p)).setPage (frame p) page := by
  rw [placePage, enter_of_present (a := { a with free := rest }) hp]
  rfl

theorem placePage_of_cons (hp : ¬ present (a.mem (frame d) (pdIndex v)) = true) :
    placePage d v page p { a with free := t :: rest } =
      ((({ a with free := rest } : Machine).put (frame d) (pdIndex v) (pageEntry t)).setPage
        (frame t) (update (fun _ => 0) (ptIndex v) (pageEntry p))).setPage (frame p) page := by
  rw [placePage, enter_of_cons (a := { a with free := t :: rest }) hp rfl]
  rfl

theorem placePage_of_nil (hp : ¬ present (a.mem (frame d) (pdIndex v)) = true) :
    placePage d v page p { a with free := [] } =
      ({ a with free := [] } : Machine).setPage (frame p) page := by
  rw [placePage, enter_of_nil (a := { a with free := [] }) hp rfl]

end

/-- A new directory `d`, with the tables of the kernel, and frames that are free for it. -/
structure NewSpace (b : Machine) (w : ℕ) (d : Word) : Prop where
  reach : Reachable b w d
  nodup : b.free.Nodup
  aligned : ∀ x ∈ b.free, 4096 ∣ x.toNat
  self : present (b.mem (frame d) selfEntry) = true ∧ frame (b.mem (frame d) selfEntry) = frame d
  kernel : ∀ i : Fin 1024, i.val < 10 → present (b.mem (frame d) i) = true ∧
    frame (b.mem (frame d) i) ≠ frame d ∧ ∀ x ∈ b.free, frame x ≠ frame (b.mem (frame d) i)
  kernel_inj : ∀ i j : Fin 1024, i.val < 10 → j.val < 10 →
    frame (b.mem (frame d) i) = frame (b.mem (frame d) j) → i = j
  rest : ∀ i, startEntries i = false → b.mem (frame d) i = 0

def taken (L : List Placement) : List Word := L.flatMap Placement.frames

/-- The kernel's entries and the last one are kept, and its pages are what was placed there last. -/
structure SoundLoad (b : Machine) (d : Word) (L : List Placement) (a : Machine) : Prop where
  frames : b.free = taken L ++ a.free
  start : ∀ i, startEntries i = true → a.mem (frame d) i = b.mem (frame d) i
  tables : ∀ i, startEntries i = false → present (a.mem (frame d) i) = true →
    ∃ x ∈ taken L, frame (a.mem (frame d) i) = frame x
  cells : ∀ i : Fin 1024, i.val < 10 → ∀ j, a.mem (frame (b.mem (frame d) i)) j =
    ((lastOf L i j).map fun pl => pageEntry pl.phys).getD (b.mem (frame (b.mem (frame d) i)) j)

section SoundLoad

variable {a a' b : Machine} {w : ℕ} {d v p t x : Word} {page : Page} {rest : List Word}
  {i j : Fin 1024} {L : List Placement} {pl : Placement}

theorem startEntries_of_lt (hi : i.val < 10) : startEntries i = true :=
  decide_eq_true (.inl hi)

theorem taken_append (L : List Placement) (pl : Placement) :
    taken (L ++ [pl]) = taken L ++ pl.frames := by
  rw [taken, flatMap_append, flatMap_singleton, taken]

namespace SoundLoad

theorem nil (b : Machine) (hb : NewSpace b w d) : SoundLoad b d [] b where
  frames := rfl
  start _ _ := rfl
  tables i hi hp := by
    rw [hb.rest i hi] at hp
    cases hp
  cells _ _ _ := rfl

theorem taken_mem (h : SoundLoad b d L a) (hx : x ∈ taken L) : x ∈ b.free := by
  rw [h.frames]
  exact mem_append_left _ hx

theorem free_mem (h : SoundLoad b d L a) (hx : x ∈ a.free) : x ∈ b.free := by
  rw [h.frames]
  exact mem_append_right _ hx

theorem fresh (hb : NewSpace b w d) (h : SoundLoad b d L a) (hx : x ∈ a.free) :
    frame x ≠ frame d ∧ (∀ i : Fin 1024, i.val < 10 → frame x ≠ frame (b.mem (frame d) i)) ∧
      ∀ y ∈ taken L, frame x ≠ frame y := by
  have hxb := h.free_mem hx
  refine ⟨(hb.reach.free x hxb).2.2.2, fun i hi => (hb.kernel i hi).2.2 x hxb, fun y hy heq => ?_⟩
  obtain rfl := eq_of_frame_eq (hb.aligned x hxb) (hb.aligned y (h.taken_mem hy)) heq
  have hnodup := hb.nodup
  rw [h.frames] at hnodup
  exact disjoint_of_nodup_append hnodup hy hx

theorem extend (h : SoundLoad b d L a) (hfree : a.free = pl.frames ++ a'.free)
    (hstart : ∀ i, startEntries i = true → a'.mem (frame d) i = a.mem (frame d) i)
    (htables : ∀ i, startEntries i = false → a'.mem (frame d) i = a.mem (frame d) i ∨
      ∃ x ∈ pl.frames, frame (a'.mem (frame d) i) = frame x)
    (hcells : ∀ i : Fin 1024, i.val < 10 → ∀ j, a'.mem (frame (b.mem (frame d) i)) j =
      if pl.At i j then pageEntry pl.phys else a.mem (frame (b.mem (frame d) i)) j) :
    SoundLoad b d (L ++ [pl]) a' where
  frames := by rw [h.frames, hfree, taken_append, append_assoc]
  start i hi := (hstart i hi).trans (h.start i hi)
  tables i hi hp := by
    rw [taken_append]
    rcases htables i hi with heq | ⟨x, hx, heq⟩
    · rw [heq] at hp ⊢
      obtain ⟨x, hx, hframe⟩ := h.tables i hi hp
      exact ⟨x, mem_append_left _ hx, hframe⟩
    · exact ⟨x, mem_append_right _ hx, heq⟩
  cells i hi j := by
    rw [hcells i hi j]
    split_ifs with hat
    · rw [lastOf_append_of_at hat]
      rfl
    · rw [lastOf_append_of_not hat, h.cells i hi j]

theorem start_present (hb : NewSpace b w d) (h : SoundLoad b d L a)
    (hs : startEntries i = true) : present (a.mem (frame d) i) = true := by
  rw [h.start i hs]
  rcases of_decide_eq_true hs with hlt | rfl
  · exact (hb.kernel i hlt).1
  · exact hb.self.1

theorem table_ne (hb : NewSpace b w d) (h : SoundLoad b d L a) (hi : i ≠ selfEntry)
    (hp : present (a.mem (frame d) i) = true) : frame (a.mem (frame d) i) ≠ frame d := by
  cases hs : startEntries i with
  | true =>
    have hlt : i.val < 10 := (of_decide_eq_true hs).resolve_right hi
    rw [h.start i hs]
    exact (hb.kernel i hlt).2.1
  | false =>
    obtain ⟨x, hx, hframe⟩ := h.tables i hs hp
    rw [hframe]
    exact (hb.reach.free x (h.taken_mem hx)).2.2.2

theorem table_ne_kernel (hb : NewSpace b w d) (h : SoundLoad b d L a) (hi : i.val < 10)
    (hj : present (a.mem (frame d) j) = true) (hij : i ≠ j) :
    frame (b.mem (frame d) i) ≠ frame (a.mem (frame d) j) := by
  cases hs : startEntries j with
  | true =>
    rw [h.start j hs]
    rcases of_decide_eq_true hs with hlt | rfl
    · exact fun heq => hij (hb.kernel_inj i j hi hlt heq)
    · rw [hb.self.2]
      exact (hb.kernel i hi).2.1
  | false =>
    obtain ⟨x, hx, hframe⟩ := h.tables j hs hj
    rw [hframe]
    exact ((hb.kernel i hi).2.2 x (h.taken_mem hx)).symm

end SoundLoad

theorem present_update {entries : Fin 1024 → Bool} {table : Page} {e : Word} (he : present e = true)
    (h : ∀ i, entries i = present (table i)) (k : Fin 1024) :
    ∀ i, update entries k true i = present (update table k e i) := by
  intro i
  by_cases hi : i = k
  · rw [hi, update_self, update_self, he]
  · rw [update_of_ne hi, update_of_ne hi, h]

variable (hb : NewSpace b w d) (h : SoundLoad b d L a) (hfree : a.free = p :: rest)

include hb h hfree

theorem SoundLoad.directory_of_present (hv : pdIndex v ≠ selfEntry)
    (hp : present (a.mem (frame d) (pdIndex v)) = true) :
    (placePage d v page p { a with free := rest }).mem (frame d) = a.mem (frame d) := by
  rw [placePage_of_present hp, mem_setPage_of_ne (h.fresh hb (mem_free hfree)).1.symm,
    mem_put_of_ne (h.table_ne hb hv hp).symm]

theorem SoundLoad.directory_of_self (hv : pdIndex v = selfEntry) :
    (placePage d v page p { a with free := rest }).mem (frame d) =
      update (a.mem (frame d)) (ptIndex v) (pageEntry p) := by
  have hentry : a.mem (frame d) (pdIndex v) = b.mem (frame d) selfEntry := by
    rw [hv]
    exact h.start _ (by decide)
  rw [placePage_of_present (by rw [hentry]; exact hb.self.1), hentry, hb.self.2,
    mem_setPage_of_ne (h.fresh hb (mem_free hfree)).1.symm, mem_put_self]

theorem SoundLoad.placeTable (hv : pdIndex v ≠ selfEntry)
    (hp : present (a.mem (frame d) (pdIndex v)) = true) :
    SoundLoad b d (L ++ [⟨v, page, p, none, true⟩])
      (placePage d v page p { a with free := rest }) := by
  have hdir : (placePage d v page p { a with free := rest }).mem (frame d) = a.mem (frame d) :=
    h.directory_of_present hb hfree hv hp
  obtain ⟨-, hpk, -⟩ := h.fresh hb (mem_free hfree)
  refine h.extend ?_ (fun i _ => congrFun hdir i) (fun i _ => .inl (congrFun hdir i))
    fun i hi j => ?_
  · rw [placePage_of_present hp]
    exact hfree
  · rw [placePage_of_present hp, mem_setPage_of_ne (hpk i hi).symm]
    by_cases hiv : i = pdIndex v
    · have hentry : b.mem (frame d) i = a.mem (frame d) (pdIndex v) := by
        rw [← hiv]
        exact (h.start i (startEntries_of_lt hi)).symm
      rw [hentry, mem_put_self]
      by_cases hj : j = ptIndex v
      · rw [hj, update_self, if_pos ⟨rfl, hiv.symm, rfl⟩]
      · rw [update_of_ne hj, if_neg fun hat => hj hat.2.2.symm]
    · rw [mem_put_of_ne (h.table_ne_kernel hb hi hp hiv), if_neg fun hat => hiv hat.2.1.symm]

theorem SoundLoad.placeSelf (hv : pdIndex v = selfEntry) (hk : startEntries (ptIndex v) = false) :
    SoundLoad b d (L ++ [⟨v, page, p, none, true⟩])
      (placePage d v page p { a with free := rest }) := by
  have hdir : (placePage d v page p { a with free := rest }).mem (frame d) = _ :=
    h.directory_of_self hb hfree hv
  have hp : present (a.mem (frame d) (pdIndex v)) = true := by
    rw [hv, h.start _ (by decide)]
    exact hb.self.1
  have hT : frame (a.mem (frame d) (pdIndex v)) = frame d := by
    rw [hv, h.start _ (by decide)]
    exact hb.self.2
  refine h.extend ?_ (fun i hi => ?_) (fun i hi => ?_) fun i hi j => ?_
  · rw [placePage_of_present hp]
    exact hfree
  · have hne : i ≠ ptIndex v := by
      rintro rfl
      rw [hi] at hk
      cases hk
    rw [hdir, update_of_ne hne]
  · rw [hdir]
    by_cases hi : i = ptIndex v
    · refine .inr ⟨p, mem_cons_self, ?_⟩
      rw [hi, update_self, frame_pageEntry]
    · exact .inl (update_of_ne hi _ _)
  · have hnot : pdIndex v ≠ i := by
      rintro rfl
      rw [hv] at hi
      exact absurd hi (by decide)
    rw [placePage_of_present hp, hT,
      mem_setPage_of_ne ((h.fresh hb (mem_free hfree)).2.1 i hi).symm,
      mem_put_of_ne (hb.kernel i hi).2.1, if_neg fun hat => hnot hat.2.1]

section

variable (hp : ¬ present (a.mem (frame d) (pdIndex v)) = true)

include hp

theorem SoundLoad.directory_of_absent {rest' : List Word} (hrest : rest = t :: rest') :
    (placePage d v page p { a with free := t :: rest' }).mem (frame d) =
      update (a.mem (frame d)) (pdIndex v) (pageEntry t) := by
  have ht : t ∈ a.free := mem_free_of_rest hfree (hrest ▸ mem_cons_self)
  rw [placePage_of_cons hp, mem_setPage_of_ne (h.fresh hb (mem_free hfree)).1.symm,
    mem_setPage_of_ne (h.fresh hb ht).1.symm, mem_put_self]

theorem SoundLoad.placeNone (hrest : rest = []) : SoundLoad b d (L ++ [⟨v, page, p, none, false⟩])
      (placePage d v page p { a with free := [] }) := by
  obtain ⟨hpd, hpk, -⟩ := h.fresh hb (mem_free hfree)
  rw [placePage_of_nil hp]
  refine h.extend (hrest ▸ hfree) (fun i _ => ?_) (fun i _ => .inl ?_) fun i hi j => ?_
  · rw [mem_setPage_of_ne hpd.symm]
  · rw [mem_setPage_of_ne hpd.symm]
  · rw [mem_setPage_of_ne (hpk i hi).symm, if_neg fun hat => Bool.false_ne_true hat.1]

theorem SoundLoad.placeNew {rest' : List Word} (hrest : rest = t :: rest') :
    SoundLoad b d (L ++ [⟨v, page, p, some t, true⟩])
      (placePage d v page p { a with free := t :: rest' }) := by
  have hdir : (placePage d v page p { a with free := t :: rest' }).mem (frame d) = _ :=
    h.directory_of_absent hb hfree hp hrest
  have hstart : startEntries (pdIndex v) = false :=
    Bool.eq_false_of_not_eq_true fun hs => hp (h.start_present hb hs)
  have ht : t ∈ a.free := mem_free_of_rest hfree (hrest ▸ mem_cons_self)
  refine h.extend ?_ (fun i hi => ?_) (fun i hi => ?_) fun i hi j => ?_
  · rw [placePage_of_cons hp, hfree, hrest]
    rfl
  · have hne : i ≠ pdIndex v := by
      rintro rfl
      rw [hi] at hstart
      cases hstart
    rw [hdir, update_of_ne hne]
  · rw [hdir]
    by_cases hi : i = pdIndex v
    · refine .inr ⟨t, mem_cons_of_mem _ mem_cons_self, ?_⟩
      rw [hi, update_self, frame_pageEntry]
    · exact .inl (update_of_ne hi _ _)
  · have hnot : pdIndex v ≠ i := by
      rintro rfl
      rw [startEntries_of_lt hi] at hstart
      cases hstart
    rw [placePage_of_cons hp, mem_setPage_of_ne ((h.fresh hb (mem_free hfree)).2.1 i hi).symm,
      mem_setPage_of_ne ((h.fresh hb ht).2.1 i hi).symm, mem_put_of_ne (hb.kernel i hi).2.1,
      if_neg fun hat => hnot hat.2.1]

end

variable {entries entries' : Fin 1024 → Bool} {free' : List Word}

theorem SoundLoad.planned (he : ∀ i, entries i = present (a.mem (frame d) i))
    (hstep : Planned entries v page p rest pl entries' free') :
    (placePage d v page p { a with free := rest }).free = free' ∧
      ∀ i, entries' i = present ((placePage d v page p { a with free := rest }).mem (frame d) i) :=
          by
  cases hstep with
  | entered hE =>
    rw [he] at hE
    refine ⟨by rw [placePage_of_present hE]; rfl, ?_⟩
    split_ifs with hself
    · rw [h.directory_of_self hb hfree hself]
      exact present_update (present_pageEntry p) he _
    · rw [h.directory_of_present hb hfree hself hE]
      exact he
  | refused hE =>
    rw [he] at hE
    rw [placePage_of_nil hE, mem_setPage_of_ne (h.fresh hb (mem_free hfree)).1.symm]
    exact ⟨rfl, he⟩
  | made hE =>
    rw [he] at hE
    refine ⟨by rw [placePage_of_cons hE]; rfl, ?_⟩
    rw [h.directory_of_absent hb hfree hE rfl]
    exact present_update (present_pageEntry _) he _

end SoundLoad

/-- The page takes the place of a table of the kernel or of the directory itself. -/
def Placement.Breaks (pl : Placement) : Prop :=
  pdIndex pl.addr = selfEntry ∧ startEntries (ptIndex pl.addr) = true

def Spoiled (b : Machine) (d : Word) (a : Machine) : Prop :=
  ∃ i, startEntries i = true ∧ ∃ x ∈ b.free, a.mem (frame d) i = pageEntry x

section Run

variable {a b : Machine} {w : ℕ} {d v p t x : Word} {page : Page} {rest : List Word}
  {i j : Fin 1024} {L : List Placement} {entries : Fin 1024 → Bool}

theorem place_nil {vp : Word × Page} {pages : List (Word × Page)} (hfree : a.free = []) :
    place d (vp :: pages) a = (false, a) := by
  rw [place, hfree]

theorem place_of_nil (pages : List (Word × Page)) (hfree : a.free = []) :
    (place d pages a).2 = a := by
  cases pages with
  | nil => rfl
  | cons vp pages => rw [place_nil hfree]

theorem place_of_cons (pages : List (Word × Page)) (hfree : a.free = p :: rest) :
    place d ((v, page) :: pages) a =
      place d pages (placePage d v page p { a with free := rest }) := by
  rw [place, hfree]

theorem free_placePage : ∀ x ∈ (placePage d v page p { a with free := rest }).free, x ∈ rest := by
  intro x hx
  by_cases hp : present (a.mem (frame d) (pdIndex v)) = true
  · rwa [placePage_of_present hp] at hx
  · cases rest with
    | nil =>
      rwa [placePage_of_nil hp] at hx
    | cons t rest =>
      rw [placePage_of_cons hp] at hx
      exact mem_cons_of_mem _ hx

theorem Spoiled.placePage (h : Spoiled b d a) (hpb : p ∈ b.free) (hpd : frame p ≠ frame d)
    (hrest : ∀ x ∈ rest, frame x ≠ frame d) :
    Spoiled b d (placePage d v page p { a with free := rest }) := by
  obtain ⟨i, hi, x, hx, hentry⟩ := h
  by_cases hp : present (a.mem (frame d) (pdIndex v)) = true
  · rw [placePage_of_present hp]
    by_cases hT : frame d = frame (a.mem (frame d) (pdIndex v))
    · by_cases hij : i = ptIndex v
      · refine ⟨i, hi, p, hpb, ?_⟩
        rw [mem_setPage_of_ne hpd.symm, ← hT, mem_put_self, hij, update_self]
      · refine ⟨i, hi, x, hx, ?_⟩
        rw [mem_setPage_of_ne hpd.symm, ← hT, mem_put_self, update_of_ne hij]
        exact hentry
    · refine ⟨i, hi, x, hx, ?_⟩
      rw [mem_setPage_of_ne hpd.symm, mem_put_of_ne hT]
      exact hentry
  · refine ⟨i, hi, x, hx, ?_⟩
    cases rest with
    | nil =>
      rw [placePage_of_nil hp, mem_setPage_of_ne hpd.symm]
      exact hentry
    | cons t rest =>
      have hne : i ≠ pdIndex v := by
        rintro rfl
        rw [hentry, present_pageEntry] at hp
        exact hp rfl
      rw [placePage_of_cons hp, mem_setPage_of_ne hpd.symm,
        mem_setPage_of_ne (hrest t mem_cons_self).symm, mem_put_self,
        update_of_ne hne]
      exact hentry

theorem Spoiled.place (h : Spoiled b d a)
    (hfree : ∀ x ∈ a.free, x ∈ b.free ∧ frame x ≠ frame d) (pages : List (Word × Page)) :
    Spoiled b d (place d pages a).2 := by
  induction pages generalizing a with
  | nil => exact h
  | cons vp pages ih =>
    cases hcons : a.free with
    | nil =>
      rw [place_of_nil _ hcons]
      exact h
    | cons p rest =>
      have hrest : ∀ x ∈ rest, x ∈ a.free := fun x hx => mem_free_of_rest hcons hx
      obtain ⟨hpb, hpd⟩ := hfree p (mem_free hcons)
      rw [place_of_cons _ hcons]
      exact ih (h.placePage hpb hpd fun x hx => (hfree x (hrest x hx)).2) fun x hx =>
        hfree x (hrest x (free_placePage x hx))

/-- A run with the placements `P` either spoils the directory or is described by them. -/
def LoadOutcome (b : Machine) (d : Word) (L P : List Placement) (a : Machine) : Prop :=
  (∃ pl ∈ P, pl.Breaks) ∧ Spoiled b d a ∨ (∀ pl ∈ P, ¬ pl.Breaks) ∧ SoundLoad b d (L ++ P) a

theorem LoadOutcome.nil (h : SoundLoad b d L a) : LoadOutcome b d L [] a := by
  refine .inr ⟨nofun, ?_⟩
  rw [append_nil]
  exact h

theorem LoadOutcome.cons {pl : Placement} {P : List Placement} (hpl : ¬ pl.Breaks)
    (h : LoadOutcome b d (L ++ [pl]) P a) : LoadOutcome b d L (pl :: P) a := by
  rcases h with ⟨⟨pl', hpl', hbreaks⟩, hs⟩ | ⟨hnot, hs⟩
  · exact .inl ⟨⟨pl', mem_cons_of_mem _ hpl', hbreaks⟩, hs⟩
  · refine .inr ⟨fun pl' hpl' => ?_, ?_⟩
    · rcases mem_cons.mp hpl' with rfl | hpl'
      · exact hpl
      · exact hnot pl' hpl'
    · rwa [append_assoc] at hs

theorem SoundLoad.step (hb : NewSpace b w d) (h : SoundLoad b d L a) (hfree : a.free = p :: rest)
    (he : ∀ i, entries i = present (a.mem (frame d) i)) {pl : Placement}
    {entries' : Fin 1024 → Bool} {free' : List Word}
    (hstep : Planned entries v page p rest pl entries' free') (hpl : ¬ pl.Breaks) :
    SoundLoad b d (L ++ [pl]) (placePage d v page p { a with free := rest }) := by
  cases hstep with
  | entered hE =>
    rw [he] at hE
    by_cases hself : pdIndex v = selfEntry
    · exact h.placeSelf hb hfree hself (Bool.eq_false_of_not_eq_true fun hk => hpl ⟨hself, hk⟩)
    · exact h.placeTable hb hfree hself hE
  | refused hE => exact h.placeNone hb hfree (he _ ▸ hE) rfl
  | made hE => exact h.placeNew hb hfree (he _ ▸ hE) rfl

theorem SoundLoad.place (hb : NewSpace b w d) (h : SoundLoad b d L a)
    (he : ∀ i, entries i = present (a.mem (frame d) i)) (pages : List (Word × Page)) :
    LoadOutcome b d L (plan entries a.free pages) (place d pages a).2 := by
  induction pages generalizing a L entries with
  | nil =>
    rw [plan]
    exact .nil h
  | cons vp pages ih =>
    obtain ⟨v, page⟩ := vp
    cases hfree : a.free with
    | nil =>
      rw [place_of_nil _ hfree]
      exact .nil h
    | cons p rest =>
      obtain ⟨pl, entries', free', hstep, hplan⟩ := plan_cons entries v page p rest pages
      obtain ⟨hfree', he'⟩ := h.planned hb hfree he hstep
      rw [place_of_cons _ hfree, hplan]
      by_cases hpl : pl.Breaks
      · refine .inl ⟨⟨pl, mem_cons_self, hpl⟩, ?_⟩
        obtain ⟨hself, hk⟩ := hpl
        rw [hstep.page_eq.1] at hself hk
        refine Spoiled.place ⟨_, hk, p, h.free_mem (mem_free hfree), ?_⟩ (fun x hx => ?_) _
        · rw [h.directory_of_self hb hfree hself, update_self]
        · have hxa : x ∈ a.free := mem_free_of_rest hfree (free_placePage x hx)
          exact ⟨h.free_mem hxa, (h.fresh hb hxa).1⟩
      · have hnext := ih (h.step hb hfree he hstep hpl) he'
        rw [hfree'] at hnext
        exact .cons hpl hnext

end Run

end Aevros
