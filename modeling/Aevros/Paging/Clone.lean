import Aevros.Paging.Tables

/-! # Copying an address space

`clone_page_directory` copies the user part of the current directory page by page. When no
frame is left it walks over what it has built and gives it back. The lemmas set the table of the
windows apart, so that each step changes either that table or what is behind it.
-/

namespace Aevros

open List

def kernelEntries : List (Fin 1024) := (finRange 1024).filter fun i => i.val < 10

def userEntries : List (Fin 1024) :=
  (finRange 1024).filter fun i => 10 ≤ i.val ∧ i.val < 768

section Entries

variable {i : Fin 1024}

theorem mem_kernelEntries : i ∈ kernelEntries ↔ i.val < 10 := by
  simp [kernelEntries]

theorem mem_userEntries : i ∈ userEntries ↔ 10 ≤ i.val ∧ i.val < 768 := by
  simp [userEntries]

theorem nodup_userEntries : userEntries.Nodup := (nodup_finRange 1024).filter _

theorem ne_selfEntry (hi : i ∈ userEntries) : i ≠ selfEntry := by
  rintro rfl
  exact absurd (mem_userEntries.mp hi).2 (by decide)

theorem ne_windowEntry (hi : i ∈ userEntries) : i ≠ windowEntry := by
  rintro rfl
  exact absurd (mem_userEntries.mp hi).2 (by decide)

end Entries

def userEntry (phys : Word) : Word := phys ||| pagePresent ||| pageWrite ||| pageUser

@[simp] theorem present_userEntry (phys : Word) : present (userEntry phys) = true := by
  have h : present pagePresent = true := by decide
  rw [userEntry, present_or, present_or, present_or, h, Bool.or_true]
  rfl

@[simp] theorem frame_userEntry (phys : Word) : frame (userEntry phys) = frame phys := by
  rw [userEntry, frame_or _ (by decide), frame_or _ (by decide), frame_or _ (by decide)]

theorem entryAddr_userEntry {phys : Word} (h : 4096 ∣ phys.toNat) :
    entryAddr (userEntry phys) = phys := by
  rw [userEntry, entryAddr_or _ (by decide), entryAddr_or _ (by decide),
    entryAddr_or _ (by decide), entryAddr_eq_self h]

def rollbackPages : List (Fin 1024) → Machine → Option Machine
  | [], s => some s
  | pt :: pts, s => do
    let entry ← s.load (wordAddr tempPtVirt pt)
    rollbackPages pts (if present entry then pmmFree s (entryAddr entry) else s)

def rollbackTables : List (Fin 1024) → Machine → Option Machine
  | [], s => some s
  | pd :: pds, s => do
    let entry ← s.load (wordAddr tempPdVirt pd)
    if present entry then
      let ptPhys := entryAddr entry
      let s ← mapPage s tempPtVirt ptPhys (pagePresent ||| pageWrite)
      let s ← rollbackPages (finRange 1024) s
      let s ← unmap s tempPtVirt
      rollbackTables pds (pmmFree s ptPhys)
    else rollbackTables pds s

def cloneRollback (s : Machine) (newPdPhys : Word) (pdBuilt : ℕ) : Option Machine :=
  if newPdPhys = 0 then some s
  else do
    let s ← mapPage s tempPdVirt newPdPhys (pagePresent ||| pageWrite)
    let s ← rollbackTables ((finRange 1024).filter fun i => 10 ≤ i.val ∧ i.val < 10 + pdBuilt) s
    let s ← unmap s tempPdVirt
    return pmmFree s newPdPhys

def clonePages (pd : Fin 1024) : List (Fin 1024) → Machine → Option (Bool × Machine)
  | [], s => some (true, s)
  | pt :: pts, s => do
    let entry ← s.load (wordAddr (tableAddr pd) pt)
    if present entry then
      let (newPhy, s) := pmmAlloc s
      if newPhy = 0 then return (false, s)
      let s ← memcpyPagePhysical s newPhy (entryAddr entry)
      let s ← s.store (wordAddr tempPtVirt pt) (userEntry newPhy)
      clonePages pd pts s
    else clonePages pd pts s

def cloneTables (newPdPhys : Word) : List (Fin 1024) → ℕ → Machine → Option (Bool × Machine)
  | [], _, s => some (true, s)
  | pd :: pds, pdBuilt, s => do
    let entry ← s.load (wordAddr pageRecursive pd)
    if present entry then
      let (newPtPhys, s) := pmmAlloc s
      if newPtPhys = 0 then
        let s ← unmap s tempPdVirt
        let s ← cloneRollback s newPdPhys pdBuilt
        return (false, s)
      let s ← mapPage s tempPtVirt newPtPhys (pagePresent ||| pageWrite)
      let s ← s.memset0 tempPtVirt
      let s ← s.store (wordAddr tempPdVirt pd) (userEntry newPtPhys)
      let (ok, s) ← clonePages pd (finRange 1024) s
      let s ← unmap s tempPtVirt
      if ok then cloneTables newPdPhys pds (pdBuilt + 1) s
      else
        let s ← unmap s tempPdVirt
        let s ← cloneRollback s newPdPhys (pdBuilt + 1)
        return (false, s)
    else cloneTables newPdPhys pds pdBuilt s

def clonePageDirectory (s : Machine) : Option (Word × Machine) := do
  let (newPdPhys, s) := pmmAlloc s
  if newPdPhys = 0 then return (0, s)
  let s ← mapPage s tempPdVirt newPdPhys (pagePresent ||| pageWrite)
  let s ← s.memset0 tempPdVirt
  let s ← s.copyWords tempPdVirt pageRecursive kernelEntries
  let (ok, s) ← cloneTables newPdPhys userEntries 0 s
  if ok then
    let s ← s.store (wordAddr tempPdVirt selfEntry) (newPdPhys ||| pagePresent ||| pageWrite)
    let s ← unmap s tempPdVirt
    return (newPdPhys, s)
  else return (0, s)

open Function

namespace Machine

variable {a : Machine} {w : ℕ} {win : Page} {v q phys x : Word} {i : Fin 1024}

theorem Wired.behind (h : a.Wired w) (win : Page) : (a.setPage w win).Wired w := h.setPage h.ne

theorem put_behind (hq : frame q ≠ w) :
    (a.setPage w win).put (frame q) i x = (a.put (frame q) i x).setPage w win := by
  rw [put, put, mem_setPage_of_ne hq, setPage_comm hq.symm]

theorem Wired.mapPage_behind (h : a.Wired w) (hv : pdIndex v = windowEntry) :
    mapPage (a.setPage w win) v phys (pagePresent ||| pageWrite) =
      some (a.setPage w (update win (ptIndex v) (shown phys))) := by
  rw [(h.behind win).mapWindow hv, put_setPage]

theorem Wired.unmap_behind (h : a.Wired w) (hv : pdIndex v = windowEntry) :
    unmap (a.setPage w win) v = some (a.setPage w (update win (ptIndex v) 0)) := by
  rw [(h.behind win).unmapWindow hv, put_setPage]

/-- The window at `v` shows the frame of `q`. -/
structure Shows (win : Page) (v q : Word) : Prop where
  aligned : 4096 ∣ v.toNat
  entry : pdIndex v = windowEntry
  shown : win (ptIndex v) = Machine.shown q

theorem Shows.of_update (hv : 4096 ∣ v.toNat) (he : pdIndex v = windowEntry) :
    Shows (update win (ptIndex v) (Machine.shown q)) v q :=
  ⟨hv, he, update_self ..⟩

theorem Shows.update (hs : Shows win v q) (hi : ptIndex v ≠ i) : Shows (update win i x) v q :=
  ⟨hs.aligned, hs.entry, by rw [update_of_ne hi, hs.shown]⟩

variable (h : a.Wired w) (hs : Shows win v q) (hq : frame q ≠ w)

include h hs

theorem Wired.pageAt_behind : (a.setPage w win).pageAt v = some (frame q) :=
  (h.behind win).pageAt_window hs.entry (by rw [mem_setPage_self, hs.shown])

include hq

theorem Wired.load_behind : (a.setPage w win).load (wordAddr v i) = some (a.mem (frame q) i) := by
  rw [load_wordAddr hs.aligned (h.pageAt_behind hs), mem_setPage_of_ne hq]

theorem Wired.store_behind :
    (a.setPage w win).store (wordAddr v i) x = some ((a.put (frame q) i x).setPage w win) := by
  rw [store_wordAddr hs.aligned (h.pageAt_behind hs), put_behind hq]

variable (hc : frame q ≠ a.cr3)

include hc

theorem Wired.memset0_behind :
    (a.setPage w win).memset0 v = some ((a.setPage (frame q) fun _ => 0).setPage w win) := by
  rw [memset0_eq hs.aligned (h.pageAt_behind hs) hc, setPage_comm hq.symm]
  rwa [hs.entry, (h.behind win).window_frame]

theorem Wired.copyWords_behind (l : List (Fin 1024)) :
    (a.setPage w win).copyWords v pageRecursive l = some ((a.setPage (frame q)
      (overwrite (a.mem (frame q)) (a.mem a.cr3) l)).setPage w win) := by
  have hself : pdIndex pageRecursive = selfEntry := by decide
  rw [copyWords_eq (by decide) hs.aligned (h.behind win).toRecursive.pageAt_pageRecursive
    (h.pageAt_behind hs) hc, setPage_comm hq.symm, mem_setPage_of_ne hq, cr3_setPage,
    mem_setPage_of_ne h.ne.symm]
  · rwa [hself, (h.behind win).self_frame]
  · rwa [hs.entry, (h.behind win).window_frame]

end Machine

end Aevros
