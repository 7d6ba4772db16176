import Aevros.Wire.Segment

/-! # Physical memory behind page tables

The kernel reaches page directories, tables and pages by virtual addresses only, by what the tables
of the current directory say at that moment.
-/

namespace Aevros

open Function List Option

abbrev Page := Fin 1024 → Word

/-- Physical memory by frame, the frame of the directory, and the stack of free frames. -/
structure Machine where
  mem : ℕ → Page
  cr3 : ℕ
  free : List Word

def pagePresent : Word := 1

def pageWrite : Word := 2

def pageUser : Word := 4

def present (entry : Word) : Bool := entry &&& pagePresent ≠ 0

def entryAddr (entry : Word) : Word := entry &&& 0xFFFFF000

def frame (w : Word) : ℕ := w.toNat / 4096

def pdIndex (v : Word) : Fin 1024 := ⟨v.toNat / 2 ^ 22, by have := v.isLt; omega⟩

def ptIndex (v : Word) : Fin 1024 := ⟨v.toNat / 4096 % 1024, Nat.mod_lt _ (by decide)⟩

def wordIndex (v : Word) : Fin 1024 := ⟨v.toNat / 4 % 1024, Nat.mod_lt _ (by decide)⟩

def wordAddr (p : Word) (i : Fin 1024) : Word := p + BitVec.ofNat 32 (4 * i)

section Addresses

variable {p : Word}

section

variable (hp : 4096 ∣ p.toNat)

include hp

variable (i : Fin 1024)

theorem toNat_wordAddr : (wordAddr p i).toNat = p.toNat + 4 * i := by
  rw [wordAddr, BitVec.toNat_add, BitVec.toNat_ofNat, Nat.mod_eq_of_lt (a := 4 * _) (by omega),
    Nat.mod_eq_of_lt (by omega)]

theorem pdIndex_wordAddr : pdIndex (wordAddr p i) = pdIndex p := by
  apply Fin.ext
  simp only [pdIndex, toNat_wordAddr hp]
  omega

theorem ptIndex_wordAddr : ptIndex (wordAddr p i) = ptIndex p := by
  apply Fin.ext
  simp only [ptIndex, toNat_wordAddr hp]
  omega

theorem wordIndex_wordAddr : wordIndex (wordAddr p i) = i := by
  apply Fin.ext
  simp only [wordIndex, toNat_wordAddr hp]
  omega

end

end Addresses

namespace Machine

variable {s : Machine} {f f' : ℕ} {i j : Fin 1024} {v p x : Word} {page : Page}

def setPage (s : Machine) (f : ℕ) (page : Page) : Machine :=
  { s with mem := update s.mem f page }

def put (s : Machine) (f : ℕ) (i : Fin 1024) (x : Word) : Machine :=
  s.setPage f (update (s.mem f) i x)

@[simp] theorem cr3_setPage : (s.setPage f page).cr3 = s.cr3 := rfl

@[simp] theorem free_setPage : (s.setPage f page).free = s.free := rfl

@[simp] theorem cr3_put : (s.put f i x).cr3 = s.cr3 := rfl

@[simp] theorem free_put : (s.put f i x).free = s.free := rfl

@[simp] theorem mem_setPage_self : (s.setPage f page).mem f = page := update_self ..

theorem mem_setPage_of_ne (h : f' ≠ f) : (s.setPage f page).mem f' = s.mem f' :=
  update_of_ne h ..

@[simp] theorem mem_put_self : (s.put f i x).mem f = update (s.mem f) i x :=
  update_self ..

theorem mem_put_of_ne (h : f' ≠ f) : (s.put f i x).mem f' = s.mem f' :=
  update_of_ne h ..

@[simp] theorem setPage_setPage (page' : Page) :
    (s.setPage f page).setPage f page' = s.setPage f page' := by
  exact congrArg (fun m => ({ s with mem := m } : Machine)) (update_idem ..)

@[simp] theorem put_setPage : (s.setPage f page).put f i x = s.setPage f (update page i x) := by
  rw [put, setPage_setPage, mem_setPage_self]

theorem setPage_comm (h : f ≠ f') (page page' : Page) :
    (s.setPage f page).setPage f' page' = (s.setPage f' page').setPage f page := by
  exact congrArg (fun m => ({ s with mem := m } : Machine)) (update_comm h ..)

@[simp] theorem setPage_self : s.setPage f (s.mem f) = s := by
  rw [setPage, update_eq_self]

@[simp] theorem put_self : s.put f i (s.mem f i) = s := by
  rw [put, update_eq_self, setPage_self]

def under (s : Machine) (c : ℕ) : Machine := { s with cr3 := c }

/-- The frame of the page that a virtual address is in; `none` is a page fault. -/
def pageAt (s : Machine) (v : Word) : Option ℕ :=
  let pde := s.mem s.cr3 (pdIndex v)
  if present pde then
    let pte := s.mem (frame pde) (ptIndex v)
    if present pte then some (frame pte) else none
  else none

def load (s : Machine) (v : Word) : Option Word := (s.pageAt v).map fun f => s.mem f (wordIndex v)

def store (s : Machine) (v x : Word) : Option Machine :=
  (s.pageAt v).map fun f => s.put f (wordIndex v) x

section

variable (hp : 4096 ∣ p.toNat)

include hp

theorem pageAt_wordAddr (i : Fin 1024) : s.pageAt (wordAddr p i) = s.pageAt p := by
  rw [pageAt, pdIndex_wordAddr hp, ptIndex_wordAddr hp, pageAt]

theorem load_wordAddr (h : s.pageAt p = some f) : s.load (wordAddr p i) = some (s.mem f i) := by
  rw [load, pageAt_wordAddr hp, h, wordIndex_wordAddr hp]
  rfl

theorem store_wordAddr (h : s.pageAt p = some f) :
    s.store (wordAddr p i) x = some (s.put f i x) := by
  rw [store, pageAt_wordAddr hp, h, wordIndex_wordAddr hp]
  rfl

end

theorem pageAt_setPage (hd : f ≠ s.cr3) (ht : f ≠ frame (s.mem s.cr3 (pdIndex v))) :
    (s.setPage f page).pageAt v = s.pageAt v := by
  rw [pageAt, pageAt, cr3_setPage, mem_setPage_of_ne hd.symm, mem_setPage_of_ne ht.symm]

section

variable (s : Machine)

def fill (p : Word) (g : Fin 1024 → Word) (l : List (Fin 1024)) : Option Machine :=
  l.foldlM (fun s i => s.store (wordAddr p i) (g i)) s

def memset0 (p : Word) : Option Machine := s.fill p (fun _ => 0) (finRange 1024)

def copyWords (q p : Word) (l : List (Fin 1024)) : Option Machine :=
  l.foldlM (fun s i => do s.store (wordAddr q i) (← s.load (wordAddr p i))) s

def memcpyPage (q p : Word) : Option Machine := s.copyWords q p (finRange 1024)

end

def overwrite (page : Page) (g : Fin 1024 → Word) (l : List (Fin 1024)) : Page :=
  fun i => if i ∈ l then g i else page i

theorem overwrite_cons (g : Fin 1024 → Word) (l : List (Fin 1024)) :
    overwrite (update page i (g i)) g l = overwrite page g (i :: l) := by
  funext j
  unfold overwrite
  by_cases hj : j = i
  · subst hj
    simp
  · simp [hj]

theorem overwrite_finRange (g : Fin 1024 → Word) : overwrite page g (finRange 1024) = g := by
  funext i
  simp [overwrite]

section

variable (hp : 4096 ∣ p.toNat)

include hp

theorem fill_eq (h : s.pageAt p = some f) (hd : f ≠ s.cr3)
    (ht : f ≠ frame (s.mem s.cr3 (pdIndex p))) (g : Fin 1024 → Word) (l : List (Fin 1024)) :
    s.fill p g l = some (s.setPage f (overwrite (s.mem f) g l)) := by
  induction l generalizing s with
  | nil =>
    have hnil : overwrite (s.mem f) g [] = s.mem f := by
      funext i
      simp [overwrite]
    rw [hnil, setPage_self]
    rfl
  | cons i l ih =>
    rw [fill, foldlM_cons, store_wordAddr hp h]
    refine (ih (s := s.put f i (g i)) ?_ hd ?_).trans ?_
    · rw [put, pageAt_setPage hd ht, h]
    · rwa [cr3_put, mem_put_of_ne hd.symm]
    · rw [put, setPage_setPage, mem_setPage_self, overwrite_cons]

theorem copyWords_eq {q : Word} (hq : 4096 ∣ q.toNat) (h : s.pageAt p = some f)
    (h' : s.pageAt q = some f') (hd : f' ≠ s.cr3) (htp : f' ≠ frame (s.mem s.cr3 (pdIndex p)))
    (htq : f' ≠ frame (s.mem s.cr3 (pdIndex q))) (l : List (Fin 1024)) :
    s.copyWords q p l = some (s.setPage f' (overwrite (s.mem f') (s.mem f) l)) := by
  induction l generalizing s with
  | nil =>
    have hnil : overwrite (s.mem f') (s.mem f) [] = s.mem f' := by
      funext i
      simp [overwrite]
    rw [hnil, setPage_self]
    rfl
  | cons i l ih =>
    rw [copyWords, foldlM_cons, load_wordAddr hp h, bind_eq_bind, bind_eq_bind,
      bind_some, store_wordAddr hq h']
    refine (ih (s := s.put f' i (s.mem f i)) ?_ ?_ hd ?_ ?_).trans ?_
    · rw [put, pageAt_setPage hd htp, h]
    · rw [put, pageAt_setPage hd htq, h']
    · rwa [cr3_put, mem_put_of_ne hd.symm]
    · rwa [cr3_put, mem_put_of_ne hd.symm]
    · by_cases hne : f = f'
      · subst hne
        rw [put_self, ← overwrite_cons, update_eq_self]
      · rw [put, setPage_setPage, mem_setPage_self, mem_setPage_of_ne hne, overwrite_cons]

theorem memset0_eq (h : s.pageAt p = some f) (hd : f ≠ s.cr3)
    (ht : f ≠ frame (s.mem s.cr3 (pdIndex p))) : s.memset0 p = some (s.setPage f fun _ => 0) := by
  rw [memset0, fill_eq hp h hd ht, overwrite_finRange]

theorem memset0_eq_none (h : s.pageAt p = none) : s.memset0 p = none := by
  rw [memset0, fill, finRange_succ, foldlM_cons, store, pageAt_wordAddr hp, h]
  rfl

end

end Machine

end Aevros
