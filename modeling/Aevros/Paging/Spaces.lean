import Aevros.Paging.Clone

/-! # Address spaces for programs

A new address space has the tables of the kernel and nothing else. Pages are entered into it
while another space is the current one, and in the end its frames are given back.
-/

namespace Aevros

open Option Machine Function List

section

variable (s : Machine)

def createUserSpace : Option (Word × Machine) := do
  let (pdPhy, s) := pmmAlloc s
  if pdPhy = 0 then return (0, s)
  let s ← mapPage s tempPdVirt pdPhy (pagePresent ||| pageWrite)
  let s ← s.memset0 tempPdVirt
  let s ← s.copyWords tempPdVirt pageRecursive kernelEntries
  let s ← s.store (wordAddr tempPdVirt selfEntry) (pdPhy ||| pagePresent ||| pageWrite)
  let s ← unmap s tempPdVirt
  return (pdPhy, s)

def newTable (vir flags newPtPhy : Word) : Option Machine := do
  let s ← mapPage s tempSrcPage newPtPhy (pagePresent ||| pageWrite)
  let s ← s.memset0 tempSrcPage
  let s ← unmap s tempSrcPage
  s.store (wordAddr tempPdVirt (pdIndex vir)) (newPtPhy ||| flags ||| pagePresent)

def writeEntry (vir phy flags ptPhys : Word) : Option (Bool × Machine) := do
  let s ← mapPage s tempSrcPage ptPhys (pagePresent ||| pageWrite)
  let s ← s.store (wordAddr tempSrcPage (ptIndex vir)) (phy ||| flags ||| pagePresent)
  let s ← unmap s tempPdVirt
  let s ← unmap s tempSrcPage
  return (true, s)

def mapPageInDirectory (tarCr3 vir phy flags : Word) : Option (Bool × Machine) := do
  let s ← mapPage s tempPdVirt tarCr3 (pagePresent ||| pageWrite)
  let entry ← s.load (wordAddr tempPdVirt (pdIndex vir))
  if present entry then writeEntry s vir phy flags (entryAddr entry)
  else
    let (newPtPhy, s) := pmmAlloc s
    if newPtPhy = 0 then
      let s ← unmap s tempPdVirt
      return (false, s)
    let s ← newTable s vir flags newPtPhy
    writeEntry s vir phy flags newPtPhy

def destroyPages : List (Fin 1024) → Machine → Option Machine
  | [], s => some s
  | pt :: pts, s => do
    let entry ← s.load (wordAddr tempPtVirt pt)
    if present entry then
      let s ← (pmmFree s (entryAddr entry)).store (wordAddr tempPtVirt pt) 0
      destroyPages pts s
    else destroyPages pts s

def destroyTable (pd : Fin 1024) (ptPhy : Word) : Option Machine := do
  let s ← mapPage s tempPtVirt ptPhy (pagePresent ||| pageWrite)
  let s ← destroyPages (finRange 1024) s
  let s ← unmap s tempPtVirt
  (pmmFree s ptPhy).store (wordAddr tempPdVirt pd) 0

def destroyTables : List (Fin 1024) → Machine → Option Machine
  | [], s => some s
  | pd :: pds, s => do
    let entry ← s.load (wordAddr tempPdVirt pd)
    if present entry then
      let s ← destroyTable s pd (entryAddr entry)
      destroyTables pds s
    else destroyTables pds s

def destroyUserSpace (cr3 : Word) : Option Machine :=
  if cr3 = 0 then some s
  else do
    let s ← mapPage s tempPdVirt cr3 (pagePresent ||| pageWrite)
    let s ← destroyTables userEntries s
    let s ← unmap s tempPdVirt
    return pmmFree s cr3

/-- A new directory: the entries of the kernel and the one for itself. -/
def newDirectory (m : Machine) (d : Word) (i : Fin 1024) : Word :=
  if i = selfEntry then d ||| pagePresent ||| pageWrite
  else if i.val < 10 then m.mem m.cr3 i
  else 0

def enter (d v p flags : Word) : Bool × Machine :=
  if present (s.mem (frame d) (pdIndex v)) then
    (true, s.put (frame (s.mem (frame d) (pdIndex v))) (ptIndex v) (p ||| flags ||| pagePresent))
  else
    match s.free with
    | [] => (false, s)
    | t :: rest =>
      (true, ((({ s with free := rest } : Machine).put (frame d) (pdIndex v)
        (t ||| flags ||| pagePresent)).setPage (frame t)
        (update (fun _ => 0) (ptIndex v) (p ||| flags ||| pagePresent))))

end

section Windows

variable {m a : Machine} {w : ℕ} {win : Page} {d v p flags : Word} {rest : List Word} {t : Word}

theorem createUserSpace_nil (hfree : m.free = []) : createUserSpace m = some (0, m) := by
  rw [createUserSpace, pmmAlloc_nil hfree]
  rfl

theorem createUserSpace_spec (h : m.Wired w) (hfree : m.free = d :: rest) (hd0 : d ≠ 0)
    (hdw : frame d ≠ w) (hdc : frame d ≠ m.cr3) :
    ∃ win, createUserSpace m = some (d, ((({ m with free := rest } : Machine).setPage (frame d)
      (newDirectory m d)).setPage w win)) := by
  have hwindow : pdIndex tempPdVirt = windowEntry := by decide
  rw [createUserSpace, pmmAlloc_cons hfree]
  dsimp only
  have h₁ := h.withFree rest
  rw [if_neg hd0, ← setPage_self (s := { m with free := rest }) (f := w)]
  generalize hm₁ : ({ m with free := rest } : Machine) = m₁ at h₁
  have hcr3 : m₁.cr3 = m.cr3 := by rw [← hm₁]
  have hmem : m₁.mem = m.mem := by rw [← hm₁]
  have hdc₁ : frame d ≠ m₁.cr3 := hcr3 ▸ hdc
  have hs : Shows (update (m₁.mem w) (ptIndex tempPdVirt) (shown d)) tempPdVirt d :=
    .of_update (by decide) hwindow
  have hmap : mapPage (m₁.setPage w (m₁.mem w)) tempPdVirt d (pagePresent ||| pageWrite) = _ :=
    h₁.mapPage_behind hwindow
  have hset := h₁.memset0_behind hs hdw hdc₁
  have h₂ : (m₁.setPage (frame d) fun _ => 0).Wired w := h₁.setPage hdc₁
  have hcopy := h₂.copyWords_behind hs hdw hdc₁ kernelEntries
  rw [mem_setPage_self, setPage_setPage, cr3_setPage, mem_setPage_of_ne hdc₁.symm] at hcopy
  have h₃ : (m₁.setPage (frame d) (overwrite (fun _ => 0) (m₁.mem m₁.cr3) kernelEntries)).Wired w :=
    h₁.setPage hdc₁
  have hstore := h₃.store_behind hs hdw (i := selfEntry) (x := d ||| pagePresent ||| pageWrite)
  rw [put_setPage] at hstore
  have hdir : update (overwrite (fun _ => 0) (m₁.mem m₁.cr3) kernelEntries) selfEntry
      (d ||| pagePresent ||| pageWrite) = newDirectory m d := by
    funext i
    by_cases hi : i = selfEntry
    · rw [hi, update_self, newDirectory, if_pos rfl]
    · rw [update_of_ne hi, newDirectory, if_neg hi, hcr3, hmem]
      simp [overwrite, kernelEntries]
  rw [hdir] at hstore
  have h₄ : (m₁.setPage (frame d) (newDirectory m d)).Wired w := h₁.setPage hdc₁
  simp only [hmap, hset, hcopy, hstore, h₄.unmap_behind hwindow, bind_eq_bind, bind_some]
  rw [setPage_self]
  exact ⟨_, rfl⟩

theorem writeEntry_spec (h : a.Wired w) (ht : frame t ≠ w) (htc : frame t ≠ a.cr3) :
    ∃ win', writeEntry (a.setPage w win) v p flags t = some (true,
      (a.put (frame t) (ptIndex v) (p ||| flags ||| pagePresent)).setPage w win') := by
  have hsrc : pdIndex tempSrcPage = windowEntry := by decide
  have hpd : pdIndex tempPdVirt = windowEntry := by decide
  have hshows : Shows (update win (ptIndex tempSrcPage) (shown t)) tempSrcPage t :=
    .of_update (by decide) hsrc
  have h₁ := h.put (i := ptIndex v) (x := p ||| flags ||| pagePresent) htc
  rw [writeEntry]
  simp only [h.mapPage_behind hsrc, h.store_behind hshows ht, h₁.unmap_behind hpd,
    h₁.unmap_behind hsrc, bind_eq_bind, bind_some]
  exact ⟨_, rfl⟩

theorem newTable_spec (h : a.Wired w) (hs : Shows win tempPdVirt d) (hd : frame d ≠ w)
    (ht : frame t ≠ w) (htc : frame t ≠ a.cr3) (htd : frame t ≠ frame d) :
    ∃ win', newTable (a.setPage w win) v flags t = some (((a.put (frame d) (pdIndex v)
      (t ||| flags ||| pagePresent)).setPage (frame t) fun _ => 0).setPage w win') := by
  have hsrc : pdIndex tempSrcPage = windowEntry := by decide
  have hshows : Shows (update win (ptIndex tempSrcPage) (shown t)) tempSrcPage t :=
    .of_update (by decide) hsrc
  have hs' : Shows (update (update win (ptIndex tempSrcPage) (shown t))
      (ptIndex tempSrcPage) 0) tempPdVirt d := (hs.update (by decide)).update (by decide)
  have h₁ : (a.setPage (frame t) fun _ => 0).Wired w := h.setPage htc
  rw [newTable]
  simp only [h.mapPage_behind hsrc, h.memset0_behind hshows ht htc, h₁.unmap_behind hsrc,
    h₁.store_behind hs' hd, bind_eq_bind, bind_some]
  refine ⟨_, congrArg (fun b : Machine => some (b.setPage w _)) ?_⟩
  rw [put, put, mem_setPage_of_ne htd.symm, setPage_comm htd]

/-- The frames that pages of another space are entered through. -/
structure Reachable (a : Machine) (w : ℕ) (d : Word) : Prop where
  wired : a.Wired w
  directory : frame d ≠ w ∧ frame d ≠ a.cr3
  tables : ∀ i, present (a.mem (frame d) i) = true →
    frame (a.mem (frame d) i) ≠ w ∧ frame (a.mem (frame d) i) ≠ a.cr3
  free : ∀ t ∈ a.free, t ≠ 0 ∧ frame t ≠ w ∧ frame t ≠ a.cr3 ∧ frame t ≠ frame d

section Reachable

variable {f : ℕ} {i : Fin 1024} {x : Word} {page : Page} {l : List Word}

theorem Reachable.withFree (h : Reachable a w d) (hl : ∀ t ∈ l, t ∈ a.free) :
    Reachable { a with free := l } w d :=
  ⟨h.wired.withFree l, h.directory, h.tables, fun t ht => h.free t (hl t ht)⟩

theorem Reachable.setPage (h : Reachable a w d) (hfc : f ≠ a.cr3) (hfd : f ≠ frame d) :
    Reachable (a.setPage f page) w d := by
  refine ⟨h.wired.setPage hfc, h.directory, fun i hi => ?_, h.free⟩
  rw [mem_setPage_of_ne hfd.symm] at hi ⊢
  exact h.tables i hi

theorem Reachable.put (h : Reachable a w d) (hfc : f ≠ a.cr3) (hxw : frame x ≠ w)
    (hxc : frame x ≠ a.cr3) : Reachable (a.put f i x) w d := by
  by_cases hfd : f = frame d
  · subst hfd
    refine ⟨h.wired.put hfc, h.directory, fun j hj => ?_, h.free⟩
    rw [mem_put_self] at hj ⊢
    by_cases hji : j = i
    · rw [hji, update_self]
      exact ⟨hxw, hxc⟩
    · rw [update_of_ne hji] at hj ⊢
      exact h.tables j hj
  · exact h.setPage hfc hfd

theorem frame_entry (hflags : flags.toNat < 4096) :
    frame (p ||| flags ||| pagePresent) = frame p := by
  rw [frame_or _ (by decide), frame_or _ hflags]

theorem enter_of_present (hp : present (a.mem (frame d) (pdIndex v)) = true) :
    enter a d v p flags = (true, a.put (frame (a.mem (frame d) (pdIndex v))) (ptIndex v)
      (p ||| flags ||| pagePresent)) := if_pos hp

theorem enter_of_nil (hp : ¬ present (a.mem (frame d) (pdIndex v)) = true) (hfree : a.free = []) :
    enter a d v p flags = (false, a) := by
  rw [enter, if_neg hp, hfree]

theorem enter_of_cons (hp : ¬ present (a.mem (frame d) (pdIndex v)) = true)
    (hfree : a.free = t :: rest) :
    enter a d v p flags = (true, (({ a with free := rest } : Machine).put (frame d) (pdIndex v)
      (t ||| flags ||| pagePresent)).setPage (frame t)
      (update (fun _ => 0) (ptIndex v) (p ||| flags ||| pagePresent))) := by
  rw [enter, if_neg hp, hfree]

theorem Reachable.enter (h : Reachable a w d) (hflags : flags.toNat < 4096) (hpw : frame p ≠ w)
    (hpc : frame p ≠ a.cr3) : Reachable (enter a d v p flags).2 w d := by
  rw [← frame_entry hflags] at hpw hpc
  by_cases hp : present (a.mem (frame d) (pdIndex v)) = true
  · rw [enter_of_present hp]
    exact h.put (h.tables _ hp).2 hpw hpc
  · cases hfree : a.free with
    | nil =>
      rw [enter_of_nil hp hfree]
      exact h
    | cons t rest =>
      obtain ⟨-, htw, htc, htd⟩ := h.free t (mem_free hfree)
      rw [enter_of_cons hp hfree]
      have hrest : Reachable { a with free := rest } w d :=
        h.withFree fun u hu => mem_free_of_rest hfree hu
      have hentry : frame (t ||| flags ||| pagePresent) = frame t := frame_entry hflags
      exact (hrest.put h.directory.2 (by rwa [hentry]) (by rwa [hentry])).setPage htc htd

end Reachable

theorem mapPageInDirectory_spec (h : Reachable a w d) :
    ∃ win', mapPageInDirectory (a.setPage w win) d v p flags =
      some ((enter a d v p flags).1, (enter a d v p flags).2.setPage w win') := by
  have hpd : pdIndex tempPdVirt = windowEntry := by decide
  obtain ⟨hdw, hdc⟩ := h.directory
  have hs : Shows (update win (ptIndex tempPdVirt) (shown d)) tempPdVirt d :=
    .of_update (by decide) hpd
  rw [mapPageInDirectory, h.wired.mapPage_behind hpd]
  generalize update win (ptIndex tempPdVirt) (shown d) = win₁ at hs
  simp only [h.wired.load_behind hs hdw, bind_eq_bind, bind_some]
  unfold enter
  by_cases hp : present (a.mem (frame d) (pdIndex v)) = true
  · obtain ⟨htw, htc⟩ := h.tables _ hp
    rw [if_pos hp, if_pos hp]
    rw [← frame_entryAddr (a.mem (frame d) (pdIndex v))] at htw htc ⊢
    exact writeEntry_spec h.wired htw htc
  · rw [if_neg hp, if_neg hp]
    cases hfree : a.free with
    | nil =>
      rw [pmmAlloc_nil (free_setPage.trans hfree)]
      rw [h.wired.unmap_behind hpd]
      exact ⟨_, rfl⟩
    | cons t rest =>
      obtain ⟨ht0, htw, htc, htd⟩ := h.free t (mem_free hfree)
      rw [pmmAlloc_cons (free_setPage.trans hfree)]
      have h₁ := h.wired.withFree rest
      have hstate : ({ a.setPage w win₁ with free := rest } : Machine) =
          ({ a with free := rest } : Machine).setPage w win₁ := rfl
      rw [if_neg ht0, hstate]
      obtain ⟨win₂, hnew⟩ : ∃ win', newTable (({ a with free := rest } : Machine).setPage w win₁)
        v flags t = _ := newTable_spec h₁ hs hdw htw htc htd
      have h₂ : ((({ a with free := rest } : Machine).put (frame d) (pdIndex v)
          (t ||| flags ||| pagePresent)).setPage (frame t) fun _ => 0).Wired w :=
        (h₁.put hdc).setPage htc
      obtain ⟨win₃, hwrite⟩ : ∃ win', writeEntry (((({ a with free := rest } : Machine).put
        (frame d) (pdIndex v) (t ||| flags ||| pagePresent)).setPage (frame t)
        fun _ => 0).setPage w win₂) v p flags t = _ := writeEntry_spec h₂ htw htc
      rw [put_setPage] at hwrite
      exact ⟨win₃, by rw [hnew, bind_some, hwrite]⟩

theorem pageFrames_update {table : Page} {j : Fin 1024} {js : List (Fin 1024)} {x : Word}
    (hj : j ∉ js) : pageFrames (update table j x) js = pageFrames table js := by
  induction js with
  | nil => rfl
  | cons k js ih =>
    rw [mem_cons, not_or] at hj
    have hk : update table j x k = table k := update_of_ne (Ne.symm hj.1) _ _
    by_cases hp : present (table k) = true
    · rw [pageFrames_cons_of_present (hk ▸ hp), pageFrames_cons_of_present hp, hk, ih hj.2]
    · rw [pageFrames_cons_of_absent (hk ▸ hp), pageFrames_cons_of_absent hp, ih hj.2]

theorem destroyPages_spec {js : List (Fin 1024)} (h : a.Wired w) (hs : Shows win tempPtVirt t)
    (ht : frame t ≠ w) (htc : frame t ≠ a.cr3) (hjs : js.Nodup) :
    ∃ page, destroyPages js (a.setPage w win) =
      some ((({ a with free := (pageFrames (a.mem (frame t)) js).foldl freeFrame a.free } :
        Machine).setPage (frame t) page).setPage w win) := by
  induction js generalizing a with
  | nil => exact ⟨a.mem (frame t), by rw [setPage_self]; rfl⟩
  | cons j js ih =>
    rw [nodup_cons] at hjs
    rw [destroyPages, h.load_behind hs ht, bind_eq_bind, bind_some]
    split_ifs with hp
    · rw [pageFrames_cons_of_present hp]
      generalize entryAddr (a.mem (frame t) j) = e
      have hfreed : (({ a with free := freeFrame a.free e } : Machine)).Wired w := h.withFree _
      have hstore : (pmmFree (a.setPage w win) e).store (wordAddr tempPtVirt j) 0 = _ :=
        hfreed.store_behind hs ht
      obtain ⟨page, hcall⟩ := ih (hfreed.put (i := j) (x := 0) htc) htc hjs.2
      rw [mem_put_self, pageFrames_update hjs.1] at hcall
      refine ⟨page, ?_⟩
      rw [hstore, bind_eq_bind, bind_some, hcall]
      exact congrArg (fun b : Machine => some (b.setPage w win)) (setPage_setPage (s := { a with
        free := (pageFrames (a.mem (frame t)) js).foldl freeFrame (freeFrame a.free e) }) page)
    · rw [pageFrames_cons_of_absent hp]
      exact ih h htc hjs.2

theorem destroyTable_spec {i : Fin 1024} {F : List Word} (h : a.Wired w)
    (hs : Shows win tempPdVirt d) (hdw : frame d ≠ w) (htw : frame t ≠ w) (htc : frame t ≠ a.cr3)
    (hF : (pageFrames (a.mem (frame t)) (finRange 1024)).foldl freeFrame a.free = F) :
    ∃ page win', destroyTable (a.setPage w win) i t =
        some (((({ a with free := freeFrame F t } : Machine).setPage (frame t) page).put
          (frame d) i 0).setPage w win') ∧ Shows win' tempPdVirt d := by
  have hpt : pdIndex tempPtVirt = windowEntry := by decide
  have hshows : Shows (update win (ptIndex tempPtVirt) (shown t)) tempPtVirt t :=
    .of_update (by decide) hpt
  have hmap : mapPage (a.setPage w win) tempPtVirt t (pagePresent ||| pageWrite) = _ :=
    h.mapPage_behind hpt
  have hs₁ := (hs.update (i := ptIndex tempPtVirt) (x := shown t) (by decide)).update
    (i := ptIndex tempPtVirt) (x := 0) (by decide)
  generalize update win (ptIndex tempPtVirt) (shown t) = win₁ at hshows hmap hs₁
  obtain ⟨page, hpages⟩ := destroyPages_spec h hshows htw htc (nodup_finRange 1024)
  rw [hF] at hpages
  have h₁ : (({ a with free := F } : Machine).setPage (frame t) page).Wired w :=
    (h.withFree F).setPage htc
  have h₂ : (({ a with free := freeFrame F t } : Machine).setPage (frame t) page).Wired w :=
    (h.withFree _).setPage htc
  have hstore : (pmmFree ((({ a with free := F } : Machine).setPage (frame t) page).setPage w
      (update win₁ (ptIndex tempPtVirt) 0)) t).store (wordAddr tempPdVirt i) 0 = _ :=
    h₂.store_behind hs₁ hdw
  rw [destroyTable]
  simp only [hmap, hpages, h₁.unmap_behind hpt, bind_eq_bind, bind_some]
  exact ⟨page, _, hstore, hs₁⟩

/-- Every table is there once, and none is the directory. -/
structure Destroyable (a : Machine) (w : ℕ) (d : Word) (is : List (Fin 1024)) : Prop where
  wired : a.Wired w
  directory : frame d ≠ w ∧ frame d ≠ a.cr3
  tables : ∀ i ∈ is, present (a.mem (frame d) i) = true → frame (a.mem (frame d) i) ≠ w ∧
    frame (a.mem (frame d) i) ≠ a.cr3 ∧ frame (a.mem (frame d) i) ≠ frame d
  distinct : ∀ i ∈ is, ∀ j ∈ is, present (a.mem (frame d) i) = true →
    present (a.mem (frame d) j) = true →
    frame (a.mem (frame d) i) = frame (a.mem (frame d) j) → i = j

theorem Destroyable.sublist {is js : List (Fin 1024)} (h : Destroyable a w d is)
    (hsub : ∀ i ∈ js, i ∈ is) : Destroyable a w d js :=
  ⟨h.wired, h.directory, fun i hi => h.tables i (hsub i hi),
    fun i hi j hj => h.distinct i (hsub i hi) j (hsub j hj)⟩

theorem Destroyable.clear {b : Machine} {is : List (Fin 1024)} (h : Destroyable a w d is)
    (hwired : b.Wired w) (hcr3 : b.cr3 = a.cr3)
    (hdir : ∀ i ∈ is, b.mem (frame d) i = a.mem (frame d) i) : Destroyable b w d is := by
  refine ⟨hwired, by rw [hcr3]; exact h.directory, fun i hi => ?_, fun i hi j hj => ?_⟩
  · rw [hdir i hi, hcr3]
    exact h.tables i hi
  · rw [hdir i hi, hdir j hj]
    exact h.distinct i hi j hj

theorem destroyTables_spec {is : List (Fin 1024)} (hd : Destroyable a w d is)
    (hs : Shows win tempPdVirt d) (his : is.Nodup) :
    ∃ (b : Machine) (win' : Page), destroyTables is (a.setPage w win) = some (b.setPage w win') ∧
      b.Wired w ∧ b.free = (tableFrames a.mem (a.mem (frame d)) is).foldl freeFrame a.free := by
  induction is generalizing a win with
  | nil => exact ⟨a, win, rfl, hd.wired, rfl⟩
  | cons i is ih =>
    rw [nodup_cons] at his
    have htail : Destroyable a w d is := hd.sublist fun j hj => mem_cons_of_mem _ hj
    rw [destroyTables, hd.wired.load_behind hs hd.directory.1, bind_eq_bind, bind_some]
    by_cases hp : present (a.mem (frame d) i) = true
    · obtain ⟨htw, htc, htd⟩ := hd.tables i mem_cons_self hp
      have hother : ∀ j ∈ is, present (a.mem (frame d) j) = true →
          frame (a.mem (frame d) j) ≠ frame (a.mem (frame d) i) := fun j hj hpj heq =>
        his.1 (hd.distinct j (mem_cons_of_mem _ hj) i mem_cons_self hpj hp heq ▸ hj)
      rw [if_pos hp, tableFrames_cons_of_present hp, foldl_append, foldl_append]
      rw [← frame_entryAddr (a.mem (frame d) i)] at htw htc htd hother ⊢
      generalize entryAddr (a.mem (frame d) i) = t at htw htc htd hother
      generalize hF : (pageFrames (a.mem (frame t)) (finRange 1024)).foldl freeFrame a.free = F
      obtain ⟨page, win₁, hcall, hs₁⟩ :=
        destroyTable_spec (i := i) hd.wired hs hd.directory.1 htw htc hF
      have hdir : ∀ j ∈ is, (((({ a with free := freeFrame F t } : Machine).setPage (frame t)
          page).put (frame d) i 0)).mem (frame d) j = a.mem (frame d) j := by
        intro j hj
        have hne : j ≠ i := fun heq => his.1 (heq ▸ hj)
        rw [mem_put_self, update_of_ne hne, mem_setPage_of_ne htd.symm]
      have hwired : ((({ a with free := freeFrame F t } : Machine).setPage (frame t) page).put
          (frame d) i 0).Wired w :=
        ((hd.wired.withFree (freeFrame F t)).setPage htc).put hd.directory.2
      obtain ⟨b, win', hrun, hwired', hfree⟩ := ih (htail.clear hwired rfl hdir) hs₁ his.2
      refine ⟨b, win', ?_, hwired', ?_⟩
      · rw [hcall, bind_eq_bind, bind_some, hrun]
      · rw [hfree, tableFrames_congr hdir]
        · rfl
        · intro j hj hpj
          rw [mem_put_of_ne (htail.tables j hj hpj).2.2, mem_setPage_of_ne (hother j hj hpj)]
    · rw [if_neg hp, tableFrames_cons_of_absent hp]
      exact ih htail hs his.2

theorem destroyUserSpace_spec (hd : Destroyable a w d userEntries) (hd0 : d ≠ 0) :
    ∃ s', destroyUserSpace (a.setPage w win) d = some s' ∧ s'.free =
      (tableFrames a.mem (a.mem (frame d)) userEntries ++ [d]).foldl freeFrame a.free := by
  have hpd : pdIndex tempPdVirt = windowEntry := by decide
  have hs : Shows (update win (ptIndex tempPdVirt) (shown d)) tempPdVirt d :=
    .of_update (by decide) hpd
  obtain ⟨b, win', hrun, hwired, hfree⟩ :=
    destroyTables_spec hd hs nodup_userEntries
  refine ⟨pmmFree (b.setPage w (update win' (ptIndex tempPdVirt) 0)) d, ?_, ?_⟩
  · rw [destroyUserSpace, if_neg hd0]
    simp only [hd.wired.mapPage_behind hpd, hrun, hwired.unmap_behind hpd, bind_eq_bind, bind_some]
    rfl
  · rw [foldl_append, ← hfree]
    rfl

end Windows

end Aevros
