import Aevros.Library.Pool
import Aevros.Paging.Machine

/-! # Page tables and windows

Tables of the current directory are reached through its last entry, frames of other address spaces
through five windows in the entry before it.
-/

namespace Aevros

open List Function

def maxFrames : ℕ := 32768

section

variable (s : Machine)

def pmmAlloc : Word × Machine :=
  match s.free with
  | [] => (0, s)
  | a :: rest => (a, { s with free := rest })

section

variable {s : Machine}

@[simp] theorem pmmAlloc_cons {a : Word} {rest : List Word} (h : s.free = a :: rest) :
    pmmAlloc s = (a, { s with free := rest }) := by
  rw [pmmAlloc, h]

@[simp] theorem pmmAlloc_nil (h : s.free = []) : pmmAlloc s = (0, s) := by
  rw [pmmAlloc, h]

theorem mem_free {a : Word} {rest : List Word} (h : s.free = a :: rest) : a ∈ s.free := by
  rw [h]
  exact mem_cons_self

theorem mem_free_of_rest {a x : Word} {rest : List Word} (h : s.free = a :: rest)
    (hx : x ∈ rest) : x ∈ s.free := by
  rw [h]
  exact mem_cons_of_mem _ hx

end

def freeFrame (l : List Word) (address : Word) : List Word :=
  if address = 0 then l
  else if address &&& 0xFFF ≠ 0 then l
  else Pool.give maxFrames l address

def pmmFree (address : Word) : Machine :=
  { s with free := freeFrame s.free address }

def pageRecursive : Word := 0xFFFFF000

def tableAddr (i : Fin 1024) : Word := 0xFFC00000 + BitVec.ofNat 32 (4096 * i)

def tempSrcPage : Word := 0xFF800000

def tempDstPage : Word := 0xFF801000

def tempPdVirt : Word := 0xFFBFF000

def tempPtVirt : Word := 0xFFBFE000

def tempMapVirt : Word := 0xFFBFD000

/-- A page fault in the kernel is fatal, so a call that faults does not return (`none`). -/
def mapPage (virt phys flags : Word) : Option Machine := do
  let pdIdx := pdIndex virt
  let ptIdx := ptIndex virt
  let pde ← s.load (wordAddr pageRecursive pdIdx)
  if present pde then
    let s ← s.store (wordAddr pageRecursive pdIdx) (pde ||| (flags &&& pageUser))
    s.store (wordAddr (tableAddr pdIdx) ptIdx) (phys ||| flags ||| pagePresent)
  else
    let (newPt, s) := pmmAlloc s
    if newPt = 0 then return s
    let s ← s.store (wordAddr pageRecursive pdIdx)
      (newPt ||| pagePresent ||| pageWrite ||| (flags &&& pageUser))
    let s ← s.memset0 (tableAddr pdIdx)
    s.store (wordAddr (tableAddr pdIdx) ptIdx) (phys ||| flags ||| pagePresent)

def unmap (virt : Word) : Option Machine := do
  let pde ← s.load (wordAddr pageRecursive (pdIndex virt))
  if present pde then s.store (wordAddr (tableAddr (pdIndex virt)) (ptIndex virt)) 0
  else return s

def memcpyPagePhysical (dst src : Word) : Option Machine := do
  let s ← mapPage s tempSrcPage src (pagePresent ||| pageWrite)
  let s ← mapPage s tempDstPage dst (pagePresent ||| pageWrite)
  let s ← s.memcpyPage tempDstPage tempSrcPage
  let s ← unmap s tempSrcPage
  unmap s tempDstPage

end

section Entries

variable {e x p : Word}

section

variable (e : Word)

theorem frame_or (hx : x.toNat < 4096) : frame (e ||| x) = frame e := by
  have hdiv : x.toNat / 2 ^ 12 = 0 := Nat.div_eq_of_lt hx
  have h12 : (4096 : ℕ) = 2 ^ 12 := rfl
  rw [frame, frame, BitVec.toNat_or, h12, ← Nat.shiftRight_eq_div_pow, Nat.shiftRight_or_distrib,
    Nat.shiftRight_eq_div_pow, Nat.shiftRight_eq_div_pow, hdiv, Nat.or_zero]

theorem toNat_entryAddr : (entryAddr e).toNat = 4096 * frame e := by
  have hbits : ∀ i < 32, (0xFFFFF000 : Word).getLsbD i = decide (12 ≤ i) := by decide
  have heq : entryAddr e = (e >>> 12) <<< 12 := by
    apply BitVec.eq_of_getLsbD_eq
    intro i hi
    rw [entryAddr, BitVec.getLsbD_and, hbits i hi]
    by_cases h12 : 12 ≤ i
    · simp [h12, hi]
    · simp [h12]
  rw [heq, BitVec.toNat_shiftLeft, BitVec.toNat_ushiftRight, frame]
  omega

theorem frame_entryAddr : frame (entryAddr e) = frame e := by
  rw [frame, toNat_entryAddr]
  omega

theorem entryAddr_eq_self (hp : 4096 ∣ p.toNat) : entryAddr p = p := by
  apply BitVec.eq_of_toNat_eq
  rw [toNat_entryAddr, frame]
  omega

theorem entryAddr_or (hx : x.toNat < 4096) : entryAddr (e ||| x) = entryAddr e := by
  apply BitVec.eq_of_toNat_eq
  rw [toNat_entryAddr, toNat_entryAddr, frame_or e hx]

theorem present_eq : present e = e.getLsbD 0 := by
  have hone : e &&& 1 = BitVec.setWidth 32 (BitVec.ofBool (e.getLsbD 0)) :=
    BitVec.and_one_eq_setWidth_ofBool_getLsbD
  rw [present, pagePresent, hone]
  cases e.getLsbD 0 <;> rfl

end

theorem present_or (e x : Word) : present (e ||| x) = (present e || present x) := by
  rw [present_eq, present_eq, present_eq, BitVec.getLsbD_or]

theorem present_zero : present 0 = false := by decide

theorem eq_of_frame_eq {a b : Word} (ha : 4096 ∣ a.toNat) (hb : 4096 ∣ b.toNat)
    (h : frame a = frame b) : a = b := by
  apply BitVec.eq_of_toNat_eq
  unfold frame at h
  omega

theorem and_offset_eq_zero (hp : 4096 ∣ p.toNat) : p &&& 0xFFF = 0 := by
  apply BitVec.eq_of_toNat_eq
  have hmask : (0xFFF : Word).toNat = 2 ^ 12 - 1 := rfl
  rw [BitVec.toNat_and, hmask, Nat.and_two_pow_sub_one_eq_mod]
  exact Nat.mod_eq_zero_of_dvd hp

theorem foldl_freeFrame {as : List Word} (h : ∀ a ∈ as, a ≠ 0 ∧ 4096 ∣ a.toNat) (l : List Word) :
    as.foldl freeFrame l = as.foldl (Pool.give maxFrames) l := by
  induction as generalizing l with
  | nil => rfl
  | cons a as ih =>
    obtain ⟨h0, ha⟩ := h a mem_cons_self
    rw [foldl_cons, foldl_cons, freeFrame, if_neg h0, if_neg (not_not.mpr (and_offset_eq_zero ha)),
      ih fun b hb => h b (mem_cons_of_mem _ hb)]

end Entries

def selfEntry : Fin 1024 := ⟨1023, by decide⟩

def windowEntry : Fin 1024 := ⟨1022, by decide⟩

namespace Machine

variable {s : Machine} {f w : ℕ} {i j : Fin 1024} {v p x phys flags : Word} {page : Page}

/-- The last entry of the current directory points to the directory. -/
structure Recursive (s : Machine) : Prop where
  self_present : present (s.mem s.cr3 selfEntry) = true
  self_frame : frame (s.mem s.cr3 selfEntry) = s.cr3

section

variable (i : Fin 1024)

theorem toNat_tableAddr : (tableAddr i).toNat = 0xFFC00000 + 4096 * i := by
  have hbase : (0xFFC00000 : Word).toNat = 0xFFC00000 := rfl
  rw [tableAddr, BitVec.toNat_add, BitVec.toNat_ofNat]
  omega

theorem dvd_tableAddr : 4096 ∣ (tableAddr i).toNat := by
  rw [toNat_tableAddr]
  omega

theorem pdIndex_tableAddr : pdIndex (tableAddr i) = selfEntry := by
  apply Fin.ext
  simp only [pdIndex, toNat_tableAddr, selfEntry]
  omega

theorem ptIndex_tableAddr : ptIndex (tableAddr i) = i := by
  apply Fin.ext
  simp only [ptIndex, toNat_tableAddr]
  omega

end

section

variable (h : s.Recursive) {t : Word}

include h

namespace Recursive

theorem pageAt_of_pdIndex (hv : pdIndex v = selfEntry) :
    s.pageAt v = if present (s.mem s.cr3 (ptIndex v)) then some (frame (s.mem s.cr3 (ptIndex v)))
      else none := by
  rw [pageAt, hv]
  rw [if_pos h.self_present, h.self_frame]

theorem pageAt_pageRecursive : s.pageAt pageRecursive = some s.cr3 := by
  have hpt : ptIndex pageRecursive = selfEntry := by decide
  rw [h.pageAt_of_pdIndex (by decide), hpt, if_pos h.self_present, h.self_frame]

theorem pageAt_tableAddr (hi : present (s.mem s.cr3 i) = true) :
    s.pageAt (tableAddr i) = some (frame (s.mem s.cr3 i)) := by
  rw [h.pageAt_of_pdIndex (pdIndex_tableAddr i), ptIndex_tableAddr, if_pos hi]

theorem load_directory (i : Fin 1024) :
    s.load (wordAddr pageRecursive i) = some (s.mem s.cr3 i) :=
  load_wordAddr (by decide) h.pageAt_pageRecursive

theorem store_directory (i : Fin 1024) (x : Word) :
    s.store (wordAddr pageRecursive i) x = some (s.put s.cr3 i x) :=
  store_wordAddr (by decide) h.pageAt_pageRecursive

theorem store_table (hi : present (s.mem s.cr3 i) = true) (j : Fin 1024) (x : Word) :
    s.store (wordAddr (tableAddr i) j) x = some (s.put (frame (s.mem s.cr3 i)) j x) :=
  store_wordAddr (dvd_tableAddr i) (h.pageAt_tableAddr hi)

theorem setPage (hf : f ≠ s.cr3) : (s.setPage f page).Recursive := by
  constructor
  · rw [cr3_setPage, mem_setPage_of_ne hf.symm]
    exact h.self_present
  · rw [cr3_setPage, mem_setPage_of_ne hf.symm]
    exact h.self_frame

theorem mapPage_present (hv : present (s.mem s.cr3 (pdIndex v)) = true)
    (hflags : flags &&& pageUser = 0) :
    mapPage s v phys flags = some (s.put (frame (s.mem s.cr3 (pdIndex v))) (ptIndex v)
      (phys ||| flags ||| pagePresent)) := by
  have hor : s.mem s.cr3 (pdIndex v) ||| (flags &&& pageUser) = s.mem s.cr3 (pdIndex v) := by
    rw [hflags]
    exact BitVec.or_zero
  rw [mapPage, h.load_directory, Option.bind_eq_bind, Option.bind_some, if_pos hv, hor,
    h.store_directory, put_self, Option.bind_eq_bind, Option.bind_some, h.store_table hv]

theorem unmap_present (hv : present (s.mem s.cr3 (pdIndex v)) = true) :
    unmap s v = some (s.put (frame (s.mem s.cr3 (pdIndex v))) (ptIndex v) 0) := by
  rw [unmap, h.load_directory, Option.bind_eq_bind, Option.bind_some, if_pos hv, h.store_table hv]

theorem mapPage_absent_nil (hv : present (s.mem s.cr3 (pdIndex v)) = false)
    (hfree : s.free = []) : mapPage s v phys flags = some s := by
  rw [mapPage, h.load_directory, Option.bind_eq_bind, Option.bind_some,
    if_neg (by rw [hv]; exact Bool.false_ne_true), pmmAlloc, hfree]
  rfl

theorem put_directory (hi : i ≠ selfEntry) (x : Word) : (s.put s.cr3 i x).Recursive := by
  constructor
  · rw [cr3_put, mem_put_self, update_of_ne hi.symm]
    exact h.self_present
  · rw [cr3_put, mem_put_self, update_of_ne hi.symm]
    exact h.self_frame

theorem mapPage_absent (hv : present (s.mem s.cr3 (pdIndex v)) = false)
    (hself : pdIndex v ≠ selfEntry) (hflags : flags &&& pageUser = 0) {rest : List Word}
    (hfree : s.free = t :: rest) (ht0 : t ≠ 0) (ht : frame t ≠ s.cr3) :
    mapPage s v phys flags = some ((({ s with free := rest } : Machine).put s.cr3 (pdIndex v)
      (t ||| pagePresent ||| pageWrite)).setPage (frame t)
        (update (fun _ => 0) (ptIndex v) (phys ||| flags ||| pagePresent))) := by
  have hor : t ||| pagePresent ||| pageWrite ||| (flags &&& pageUser) =
      t ||| pagePresent ||| pageWrite := by
    rw [hflags]
    exact BitVec.or_zero
  have hrec : ({ s with free := rest } : Machine).Recursive := ⟨h.self_present, h.self_frame⟩
  have hrec' := hrec.put_directory hself (t ||| pagePresent ||| pageWrite)
  set s₁ := ({ s with free := rest } : Machine).put s.cr3 (pdIndex v)
    (t ||| pagePresent ||| pageWrite) with hs₁
  have hentry : s₁.mem s₁.cr3 (pdIndex v) = t ||| pagePresent ||| pageWrite := by
    rw [cr3_put, mem_put_self, update_self]
  have hpresent : present (s₁.mem s₁.cr3 (pdIndex v)) = true := by
    rw [hentry, present_or, present_or]
    simp [pagePresent, present]
  have hframe : frame (s₁.mem s₁.cr3 (pdIndex v)) = frame t := by
    rw [hentry, frame_or _ (by decide), frame_or _ (by decide)]
  have hpage := hrec'.pageAt_tableAddr hpresent
  rw [hframe] at hpage
  have hset : s₁.memset0 (tableAddr (pdIndex v)) = some (s₁.setPage (frame t) fun _ => 0) := by
    refine memset0_eq (dvd_tableAddr _) hpage ht ?_
    rw [pdIndex_tableAddr, hrec'.self_frame]
    exact ht
  rw [mapPage, h.load_directory, Option.bind_eq_bind, Option.bind_some,
    if_neg (by rw [hv]; exact Bool.false_ne_true), pmmAlloc, hfree]
  dsimp only
  have hstore : ({ s with free := rest } : Machine).store (wordAddr pageRecursive (pdIndex v))
      (t ||| pagePresent ||| pageWrite) = some s₁ := hrec.store_directory _ _
  rw [if_neg ht0, hor, hstore, Option.bind_eq_bind, Option.bind_some, hset, Option.bind_some]
  have hrec'' : (s₁.setPage (frame t) fun _ => 0).Recursive := hrec'.setPage ht
  have hsame : (s₁.setPage (frame t) fun _ => 0).mem s₁.cr3 = s₁.mem s₁.cr3 :=
    mem_setPage_of_ne (Ne.symm ht)
  rw [hrec''.store_table (by rw [cr3_setPage, hsame]; exact hpresent), cr3_setPage, hsame, hframe,
    put_setPage]

end Recursive

end

def shown (phys : Word) : Word := phys ||| (pagePresent ||| pageWrite) ||| pagePresent

@[simp] theorem frame_shown (phys : Word) : frame (shown phys) = frame phys := by
  rw [shown, frame_or _ (by decide), frame_or _ (by decide)]

@[simp] theorem present_shown (phys : Word) : present (shown phys) = true := by
  rw [shown, present_or]
  exact Bool.or_true _

/-- The table of the windows exists, in a frame of its own. -/
structure Wired (s : Machine) (w : ℕ) : Prop extends s.Recursive where
  window_present : present (s.mem s.cr3 windowEntry) = true
  window_frame : frame (s.mem s.cr3 windowEntry) = w
  ne : w ≠ s.cr3

section

variable (h : s.Wired w)

include h

theorem Wired.setPage (hf : f ≠ s.cr3) : (s.setPage f page).Wired w where
  toRecursive := h.toRecursive.setPage hf
  window_present := by
    rw [cr3_setPage, mem_setPage_of_ne hf.symm]
    exact h.window_present
  window_frame := by
    rw [cr3_setPage, mem_setPage_of_ne hf.symm]
    exact h.window_frame
  ne := h.ne

theorem Wired.put (hf : f ≠ s.cr3) : (s.put f i x).Wired w := h.setPage hf

theorem Wired.withFree (l : List Word) : ({ s with free := l } : Machine).Wired w :=
  ⟨⟨h.self_present, h.self_frame⟩, h.window_present, h.window_frame, h.ne⟩

variable (hv : pdIndex v = windowEntry)

include hv

theorem Wired.mapWindow :
    mapPage s v phys (pagePresent ||| pageWrite) = some (s.put w (ptIndex v) (shown phys)) := by
  rw [h.mapPage_present (by rw [hv]; exact h.window_present) (by decide), hv, h.window_frame, shown]

theorem Wired.unmapWindow : unmap s v = some (s.put w (ptIndex v) 0) := by
  rw [h.unmap_present (by rw [hv]; exact h.window_present), hv, h.window_frame]

theorem Wired.pageAt_window
    (hw : s.mem w (ptIndex v) = shown phys) : s.pageAt v = some (frame phys) := by
  rw [pageAt, hv]
  rw [if_pos h.window_present, h.window_frame, hw, if_pos (present_shown phys), frame_shown]

end

/-- The machine with an empty table for the windows in the frame `t`. -/
def install (s : Machine) (t : Word) (l : List Word) : Machine :=
  (({ s with free := l } : Machine).put s.cr3 windowEntry
    (t ||| pagePresent ||| pageWrite)).setPage (frame t) fun _ => 0

@[simp] theorem cr3_install (t : Word) (l : List Word) : (s.install t l).cr3 = s.cr3 := rfl

@[simp] theorem free_install (t : Word) (l : List Word) : (s.install t l).free = l := rfl

theorem mem_install_of_ne {l : List Word} (hf : f ≠ frame t) (hc : f ≠ s.cr3) :
    (s.install t l).mem f = s.mem f := by
  rw [install, mem_setPage_of_ne hf, mem_put_of_ne hc]

theorem mem_install_cr3 {l : List Word} (ht : frame t ≠ s.cr3) (hi : i ≠ windowEntry) :
    (s.install t l).mem s.cr3 i = s.mem s.cr3 i := by
  rw [install, mem_setPage_of_ne ht.symm, mem_put_self, update_of_ne hi]

theorem Recursive.install (h : s.Recursive) (ht : frame t ≠ s.cr3) (l : List Word) :
    (s.install t l).Wired (frame t) := by
  have hrec : ({ s with free := l } : Machine).Recursive := ⟨h.self_present, h.self_frame⟩
  have hentry : (s.install t l).mem s.cr3 windowEntry = t ||| pagePresent ||| pageWrite := by
    rw [Machine.install, mem_setPage_of_ne ht.symm, mem_put_self, update_self]
  refine ⟨(hrec.put_directory (by decide) _).setPage ht, ?_, ?_, ht⟩
  · have hone : present pagePresent = true := by decide
    rw [cr3_install, hentry, present_or, present_or, hone, Bool.or_true]
    rfl
  · rw [cr3_install, hentry, frame_or _ (by decide), frame_or _ (by decide)]

theorem Recursive.mapPage_install (h : s.Recursive) {rest : List Word}
    (habsent : present (s.mem s.cr3 windowEntry) = false) (hfree : s.free = t :: rest) (ht0 : t ≠ 0)
    (ht : frame t ≠ s.cr3) (hv : pdIndex v = windowEntry) :
    mapPage s v phys (pagePresent ||| pageWrite) =
      mapPage (s.install t rest) v phys (pagePresent ||| pageWrite) := by
  rw [(h.install ht rest).mapWindow hv, h.mapPage_absent (by rw [hv]; exact habsent)
    (by rw [hv]; decide) (by decide) hfree ht0 ht, hv]
  rw [Machine.install, put_setPage, shown]

theorem Wired.memcpyPagePhysical (h : s.Wired w) {dst : Word} (src : Word)
    (hd : frame dst ≠ s.cr3) (hw : frame dst ≠ w) : ∃ page win,
      memcpyPagePhysical s dst src = some ((s.setPage (frame dst) page).setPage w win) ∧
      (frame src ≠ w → page = s.mem (frame src)) ∧
      ∀ k, k ≠ ptIndex tempSrcPage → k ≠ ptIndex tempDstPage → win k = s.mem w k := by
  have hsrc : pdIndex tempSrcPage = windowEntry := by decide
  have hdst : pdIndex tempDstPage = windowEntry := by decide
  have hne : ptIndex tempSrcPage ≠ ptIndex tempDstPage := by decide
  have h₁ : (s.put w (ptIndex tempSrcPage) (shown src)).Wired w := h.put h.ne
  set s₁ := s.put w (ptIndex tempSrcPage) (shown src) with hs₁
  have h₂ : (s₁.put w (ptIndex tempDstPage) (shown dst)).Wired w := h₁.put h.ne
  set s₂ := s₁.put w (ptIndex tempDstPage) (shown dst) with hs₂
  have hsrcAt : s₂.pageAt tempSrcPage = some (frame src) := by
    refine h₂.pageAt_window hsrc ?_
    rw [mem_put_self, update_of_ne hne, mem_put_self, update_self]
  have hdstAt : s₂.pageAt tempDstPage = some (frame dst) := by
    refine h₂.pageAt_window hdst ?_
    rw [mem_put_self, update_self]
  have hcopy : s₂.memcpyPage tempDstPage tempSrcPage =
      some (s₂.setPage (frame dst) (s₂.mem (frame src))) := by
    rw [memcpyPage, copyWords_eq (by decide) (by decide) hsrcAt hdstAt hd ?_ ?_, overwrite_finRange]
    · rw [hsrc, h₂.window_frame]
      exact hw
    · rw [hdst, h₂.window_frame]
      exact hw
  have h₃ : (s₂.setPage (frame dst) (s₂.mem (frame src))).Wired w := h₂.setPage hd
  have h₄ := h₃.put (i := ptIndex tempSrcPage) (x := 0) h.ne
  refine ⟨s₂.mem (frame src), update (update (s₂.mem w) (ptIndex tempSrcPage) 0)
    (ptIndex tempDstPage) 0, ?_, fun hsw => ?_, fun k hk hk' => ?_⟩
  · have e₁ : mapPage s tempSrcPage src (pagePresent ||| pageWrite) = some s₁ := h.mapWindow hsrc
    have e₂ : mapPage s₁ tempDstPage dst (pagePresent ||| pageWrite) = some s₂ := h₁.mapWindow hdst
    simp only [Aevros.memcpyPagePhysical, Option.bind_eq_bind, e₁, e₂, hcopy,
      h₃.unmapWindow hsrc, h₄.unmapWindow hdst, Option.bind_some]
    have hwin : s₂ = s.setPage w (s₂.mem w) := by
      rw [hs₂, hs₁, Machine.put, Machine.put, mem_setPage_self, setPage_setPage, mem_setPage_self]
    rw [Machine.put, Machine.put, mem_setPage_self, setPage_setPage, mem_setPage_of_ne (Ne.symm hw)]
    nth_rewrite 1 [hwin]
    rw [setPage_comm (Ne.symm hw), setPage_setPage]
  · rw [mem_put_of_ne hsw, mem_put_of_ne hsw]
  · rw [update_of_ne hk', update_of_ne hk, mem_put_self, update_of_ne hk', mem_put_self,
      update_of_ne hk]

/-- The free frames are frames that neither the directory nor the table of the windows is in. -/
structure Stocked (m : Machine) : Prop where
  recursive : m.Recursive
  nodup : m.free.Nodup
  length_le : m.free.length ≤ maxFrames
  ne_zero : ∀ a ∈ m.free, a ≠ 0
  aligned : ∀ a ∈ m.free, 4096 ∣ a.toNat
  ne_cr3 : ∀ a ∈ m.free, frame a ≠ m.cr3
  window : present (m.mem m.cr3 windowEntry) = true → frame (m.mem m.cr3 windowEntry) ≠ m.cr3 ∧
      ∀ a ∈ m.free, frame a ≠ frame (m.mem m.cr3 windowEntry)

/-- The same where the table of the windows exists, in the frame `w`. -/
structure Supply (m : Machine) (w : ℕ) : Prop where
  wired : m.Wired w
  nodup : m.free.Nodup
  length_le : m.free.length ≤ maxFrames
  ne_zero : ∀ a ∈ m.free, a ≠ 0
  aligned : ∀ a ∈ m.free, 4096 ∣ a.toNat
  ne_cr3 : ∀ a ∈ m.free, frame a ≠ m.cr3
  ne_window : ∀ a ∈ m.free, frame a ≠ w

theorem Supply.frame_inj {m : Machine} (hm : m.Supply w) {a b : Word} (ha : a ∈ m.free)
    (hb : b ∈ m.free) (h : frame a = frame b) : a = b :=
  eq_of_frame_eq (hm.aligned a ha) (hm.aligned b hb) h

theorem Stocked.supply {m : Machine} (h : m.Stocked)
    (hw : present (m.mem m.cr3 windowEntry) = true) :
    m.Supply (frame (m.mem m.cr3 windowEntry)) :=
  ⟨⟨h.recursive, hw, rfl, (h.window hw).1⟩, h.nodup, h.length_le, h.ne_zero, h.aligned, h.ne_cr3,
    (h.window hw).2⟩

section Install

variable {m : Machine} {d t : Word} {rest : List Word} (hfree : m.free = d :: t :: rest)

include hfree

theorem mem_rest {a : Word} (ha : a ∈ d :: rest) : a ∈ m.free := by
  rw [hfree]
  rcases mem_cons.mp ha with rfl | ha
  · exact mem_cons_self
  · exact mem_cons_of_mem _ (mem_cons_of_mem _ ha)

theorem window_mem : t ∈ m.free := by
  rw [hfree]
  exact mem_cons_of_mem _ mem_cons_self

variable (h : m.Stocked) {is : List (Fin 1024)} {js : List (Fin 1024)} {mem : ℕ → Page}

include h

theorem Stocked.window_not_mem : t ∉ d :: rest := by
  have hnodup := hfree ▸ h.nodup
  rw [nodup_cons, nodup_cons, mem_cons, not_or] at hnodup
  rw [mem_cons, not_or]
  exact ⟨fun heq => hnodup.1.1 heq.symm, hnodup.2.1⟩

theorem Stocked.supply_install : (m.install t (d :: rest)).Supply (frame t) where
  wired := h.recursive.install (h.ne_cr3 t (window_mem hfree)) _
  nodup := by
    have hnodup := hfree ▸ h.nodup
    exact hnodup.sublist ((sublist_cons_self t rest).cons_cons d)
  length_le := by
    have hle := h.length_le
    rw [hfree] at hle
    simp only [free_install, length_cons] at hle ⊢
    omega
  ne_zero a ha := h.ne_zero a (mem_rest hfree ha)
  aligned a ha := h.aligned a (mem_rest hfree ha)
  ne_cr3 a ha := h.ne_cr3 a (mem_rest hfree ha)
  ne_window a ha heq := by
    obtain rfl := eq_of_frame_eq (h.aligned a (mem_rest hfree ha))
      (h.aligned t (window_mem hfree)) heq
    exact h.window_not_mem hfree ha

theorem Stocked.mapPage_window (habsent : present (m.mem m.cr3 windowEntry) = false) :
    mapPage { m with free := t :: rest } tempPdVirt d (pagePresent ||| pageWrite) =
      mapPage (m.install t rest) tempPdVirt d (pagePresent ||| pageWrite) := by
  have hrec : ({ m with free := t :: rest } : Machine).Recursive :=
    ⟨h.recursive.self_present, h.recursive.self_frame⟩
  have ht := window_mem hfree
  exact hrec.mapPage_install habsent rfl (h.ne_zero t ht) (h.ne_cr3 t ht) (by decide)

omit hfree in
theorem Stocked.window_absent (habsent : present (m.mem m.cr3 windowEntry) = false) :
    mapPage { m with free := [] } tempPdVirt d (pagePresent ||| pageWrite) =
        some { m with free := [] } ∧
      ({ m with free := [] } : Machine).memset0 tempPdVirt = none := by
  have hrec : ({ m with free := [] } : Machine).Recursive :=
    ⟨h.recursive.self_present, h.recursive.self_frame⟩
  exact ⟨hrec.mapPage_absent_nil habsent rfl,
    memset0_eq_none (by decide) (if_neg (ne_true_of_eq_false habsent))⟩

end Install

end Machine

def pageFrames (table : Page) (js : List (Fin 1024)) : List Word :=
  (js.filter fun j => present (table j)).map fun j => entryAddr (table j)

theorem pageFrames_cons_of_present {table : Page} {j : Fin 1024} (h : present (table j) = true) :
    pageFrames table (j :: js) = entryAddr (table j) :: pageFrames table js := by
  simp [pageFrames, h]

theorem pageFrames_cons_of_absent {table : Page} {j : Fin 1024} (h : ¬ present (table j) = true) :
    pageFrames table (j :: js) = pageFrames table js := by
  simp [pageFrames, h]

/-- The frames of the tables of a directory, each after those of its pages. -/
def tableFrames (mem : ℕ → Page) (directory : Page) (is : List (Fin 1024)) : List Word :=
  is.flatMap fun i =>
    if present (directory i) then
      pageFrames (mem (frame (directory i))) (finRange 1024) ++ [entryAddr (directory i)]
    else []

variable {directory : Page}

theorem tableFrames_cons_of_present {i : Fin 1024} (h : present (directory i) = true) :
    tableFrames mem directory (i :: is) =
      pageFrames (mem (frame (directory i))) (finRange 1024) ++ [entryAddr (directory i)] ++
        tableFrames mem directory is := by
  rw [tableFrames, flatMap_cons, if_pos h]
  rfl

theorem tableFrames_cons_of_absent {i : Fin 1024} (h : ¬ present (directory i) = true) :
    tableFrames mem directory (i :: is) = tableFrames mem directory is := by
  rw [tableFrames, flatMap_cons, if_neg h]
  rfl

theorem tableFrames_congr {mem mem' : ℕ → Page} {directory directory' : Page}
    (hd : ∀ i ∈ is, directory' i = directory i)
    (h : ∀ i ∈ is, present (directory i) = true → mem' (frame (directory i)) = mem (frame
      (directory i))) : tableFrames mem' directory' is = tableFrames mem directory is := by
  refine flatMap_congr fun i hi => ?_
  rw [hd i hi]
  split_ifs with hp
  · rw [h i hi hp]
  · rfl

theorem mem_pageFrames {table : Page} {a : Word} :
    a ∈ pageFrames table js ↔ ∃ j ∈ js, present (table j) = true ∧ a = entryAddr (table j) := by
  simp only [pageFrames, mem_map, mem_filter, and_assoc, eq_comm (a := a)]

theorem mem_tableFrames {a : Word} :
    a ∈ tableFrames mem directory is ↔ ∃ i ∈ is, present (directory i) = true ∧
      (a = entryAddr (directory i) ∨ ∃ j, present (mem (frame (directory i)) j) = true ∧
        a = entryAddr (mem (frame (directory i)) j)) := by
  rw [tableFrames, mem_flatMap]
  refine exists_congr fun i => and_congr_right fun _ => ?_
  split_ifs with h
  · rw [mem_append, mem_pageFrames, or_comm]
    simp [h]
  · simp [h]

end Aevros
