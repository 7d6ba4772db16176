import Aevros.Elf.Load

/-! # What the loader places

The pages that a file asks for, with their contents, are known before the first frame is
taken. Behind the windows the loader takes these pages in order, and each of them gets the
next free frame.
-/

namespace Aevros

open Machine List Option

def segmentPages (file : ElfFile) (ph : Phdr) : List Word → Word → Word → List (Word × Page)
  | [], _, _ => []
  | addr :: addrs, srcOff, fileRemaining =>
    let copyBytes := ph.copyBytes addr fileRemaining
    (addr, writeBytes (fun _ => 0) (file.copies srcOff (ph.copyStart addr) copyBytes)) ::
      segmentPages file ph addrs (srcOff + copyBytes) (fileRemaining - copyBytes)

def loadablePages (file : ElfFile) (phs : List Phdr) : List (Word × Page) :=
  phs.flatMap fun ph =>
    if ph.type = ptLoad then segmentPages file ph ph.pages ph.offset ph.fileSize else []

def ElfFile.readable (file : ElfFile) : Bool := file.hdr ≠ 0 ∧ file.elfProgHeaders ≠ 0

def imagePages (file : ElfFile) : List (Word × Page) :=
  if file.readable then loadablePages file file.phdrs else []

def placePage (d : Word) (v : Word) (page : Page) (p : Word) (s : Machine) : Machine :=
  (enter s d v p userFlags).2.setPage (frame p) page

def place (d : Word) : List (Word × Page) → Machine → Bool × Machine
  | [], s => (true, s)
  | (v, page) :: pages, s =>
    match s.free with
    | [] => (false, s)
    | p :: rest => place d pages (placePage d v page p { s with free := rest })

section

variable {a : Machine} {w : ℕ} {win : Page} {d v p : Word} {page : Page} {rest : List Word}
  {file : ElfFile} {ph : Phdr}

theorem place_append (pages pages' : List (Word × Page)) (s : Machine) :
    place d (pages ++ pages') s =
      if (place d pages s).1 then place d pages' (place d pages s).2 else place d pages s := by
  induction pages generalizing s with
  | nil => simp [place]
  | cons vp pages ih =>
    rw [cons_append, place, place]
    cases hfree : s.free with
    | nil => simp
    | cons p rest => exact ih _

theorem writeBytes_zeros (page : Page) : writeBytes page zeros = fun _ => 0 := by
  refine eq_of_pageByte fun k => ?_
  have hmem : (k, (0 : Byte)) ∈ zeros := List.mem_map.mpr ⟨k, List.mem_finRange k, rfl⟩
  have hnodup : (zeros.map Prod.fst).Nodup := by
    rw [zeros, List.map_map]
    exact (nodup_finRange 4096).map fun _ _ h => h
  rw [pageByte_writeBytes_of_mem hmem hnodup]
  exact BitVec.extractLsb'_zero.symm

theorem toNat_userFlags_lt : userFlags.toNat < 4096 := by decide

theorem cr3_enter : (enter a d v p userFlags).2.cr3 = a.cr3 := by
  by_cases hp : present (a.mem (frame d) (pdIndex v)) = true
  · rw [enter_of_present hp, cr3_put]
  · cases hfree : a.free with
    | nil => rw [enter_of_nil hp hfree]
    | cons t rest => rw [enter_of_cons hp hfree, cr3_setPage, cr3_put]

theorem Reachable.placePage (h : Reachable a w d) (hfree : a.free = p :: rest) :
    Reachable (placePage d v page p { a with free := rest }) w d := by
  obtain ⟨-, hpw, hpc, hpd⟩ := h.free p (mem_free hfree)
  have hrest : Reachable { a with free := rest } w d :=
    h.withFree fun u hu => mem_free_of_rest hfree hu
  refine (hrest.enter toNat_userFlags_lt hpw hpc).setPage ?_ hpd
  rw [cr3_enter]
  exact hpc

theorem Reachable.place (h : Reachable a w d) (pages : List (Word × Page)) :
    Reachable (place d pages a).2 w d := by
  induction pages generalizing a with
  | nil => exact h
  | cons vp pages ih =>
    rw [Aevros.place]
    cases hfree : a.free with
    | nil => exact h
    | cons p rest => exact ih (h.placePage hfree)

theorem fillPage_spec (h : a.Wired w) (hpw : frame p ≠ w) (hpc : frame p ≠ a.cr3)
    (l : List (Fin 4096 × Byte)) : ∃ win', fillPage (a.setPage w win) p l =
      some ((a.setPage (frame p) (writeBytes (fun _ => 0) l)).setPage w win') := by
  have hmap : pdIndex tempMapVirt = windowEntry := by decide
  have hs : Shows (Function.update win (ptIndex tempMapVirt) (shown p)) tempMapVirt p :=
    .of_update (by decide) hmap
  have hzero := h.storeBytes_behind hs hpw hpc zeros
  rw [writeBytes_zeros] at hzero
  have h₁ : (a.setPage (frame p) fun _ => 0).Wired w := h.setPage hpc
  have hcopy := h₁.storeBytes_behind hs hpw hpc l
  rw [mem_setPage_self, setPage_setPage] at hcopy
  have h₂ : (a.setPage (frame p) (writeBytes (fun _ => 0) l)).Wired w := h.setPage hpc
  rw [fillPage]
  simp only [h.mapPage_behind hmap, hzero, hcopy, h₂.unmap_behind hmap, bind_eq_bind, bind_some]
  exact ⟨_, rfl⟩

variable (h : Reachable a w d)

include h

theorem loadPages_spec (addrs : List Word) (srcOff fileRemaining : Word) :
    ∃ win', loadPages file d ph addrs srcOff fileRemaining (a.setPage w win) =
      some ((place d (segmentPages file ph addrs srcOff fileRemaining) a).1,
        (place d (segmentPages file ph addrs srcOff fileRemaining) a).2.setPage w win') := by
  induction addrs generalizing a win srcOff fileRemaining with
  | nil => exact ⟨win, rfl⟩
  | cons addr addrs ih =>
    rw [loadPages, segmentPages, place]
    cases hfree : a.free with
    | nil =>
      rw [pmmAlloc_nil (free_setPage.trans hfree)]
      exact ⟨win, rfl⟩
    | cons p rest =>
      obtain ⟨hp0, hpw, hpc, hpd⟩ := h.free p (mem_free hfree)
      have hrest : Reachable { a with free := rest } w d :=
        h.withFree fun u hu => mem_free_of_rest hfree hu
      have hstate : ({ a.setPage w win with free := rest } : Machine) =
          ({ a with free := rest } : Machine).setPage w win := rfl
      obtain ⟨win₁, henter⟩ : ∃ win', mapPageInDirectory (({ a with free := rest } :
        Machine).setPage w win) d addr p userFlags = _ := mapPageInDirectory_spec hrest
      have hentered := hrest.enter (v := addr) toNat_userFlags_lt hpw hpc
      rw [pmmAlloc_cons (free_setPage.trans hfree)]
      dsimp only
      obtain ⟨win₂, hfill⟩ : ∃ win', fillPage ((enter { a with free := rest } d addr p
        userFlags).2.setPage w win₁) p (file.copies srcOff (ph.copyStart addr)
          (ph.copyBytes addr fileRemaining)) = _ :=
        fillPage_spec hentered.wired hpw (by rw [cr3_enter]; exact hpc) _
      rw [if_neg hp0, hstate, henter]
      simp only [hfill, bind_eq_bind, bind_some]
      exact ih (h.placePage hfree) _ _

theorem loadSegs_spec (phs : List Phdr) :
    ∃ win', loadSegs file d phs (a.setPage w win) = some ((place d (loadablePages file phs) a).1,
        (place d (loadablePages file phs) a).2.setPage w win') := by
  induction phs generalizing a win with
  | nil => exact ⟨win, rfl⟩
  | cons ph phs ih =>
    rw [loadSegs, loadablePages, flatMap_cons]
    by_cases hload : ph.type = ptLoad
    · rw [if_neg (not_not.mpr hload), if_pos hload, place_append]
      obtain ⟨win₁, hcall⟩ : ∃ win', loadPages file d ph ph.pages ph.offset ph.fileSize
        (a.setPage w win) = _ := loadPages_spec h ph.pages ph.offset ph.fileSize
      rw [hcall, bind_eq_bind, bind_some]
      dsimp only
      cases hok : (place d (segmentPages file ph ph.pages ph.offset ph.fileSize) a).1 with
      | true => exact ih (h.place _)
      | false =>
        refine ⟨win₁, ?_⟩
        rw [if_neg Bool.false_ne_true, if_neg Bool.false_ne_true, hok]
        rfl
    · rw [if_pos hload, if_neg hload]
      exact ih h

theorem elfLoadSegs_spec (hd : d ≠ 0) : ∃ win', elfLoadSegs file d (a.setPage w win) =
      some (file.readable && (place d (imagePages file) a).1,
        (place d (imagePages file) a).2.setPage w win') := by
  rw [elfLoadSegs, imagePages]
  cases hread : file.readable with
  | false =>
    refine ⟨win, ?_⟩
    by_cases hhdr : file.hdr = 0
    · rw [if_pos (.inl hhdr)]
      rfl
    · have hphdrs : file.elfProgHeaders = 0 := by
        by_contra hne
        exact of_decide_eq_false hread ⟨hhdr, hne⟩
      rw [if_neg (not_or.mpr ⟨hhdr, hd⟩), if_pos hphdrs]
      rfl
  | true =>
    obtain ⟨hhdr, hphdrs⟩ := of_decide_eq_true hread
    rw [if_neg (not_or.mpr ⟨hhdr, hd⟩), if_neg hphdrs]
    exact loadSegs_spec h file.phdrs

end

end Aevros
