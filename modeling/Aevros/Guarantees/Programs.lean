import Aevros.Elf.Start

/-! # Programs and the kernel

The addresses of segments are not checked, so the kernel keeps its translations exactly for those
files none of whose pages reaches them.
-/

namespace Aevros

open Machine List BitVec Prod

variable {m s : Machine} {w : ℕ} {d : Word} {a b : Machine} {file : ElfFile} {win : Page}

def walk (s : Machine) (c : ℕ) (i j : Fin 1024) : Word × Word :=
  (s.mem c i, s.mem (frame (s.mem c i)) j)

def landings (m : Machine) (file : ElfFile) : List Placement :=
  plan startEntries (framesLeft m) (imagePages file)

/-- Kernel addresses are translated as before, and the last entry is the same. -/
def KernelKept (m : Machine) (file : ElfFile) : Prop :=
  ∀ d s, createUserSpace m = some (d, s) → ∃ ok s', elfLoadSegs file d s = some (ok, s') ∧
    (∀ i : Fin 1024, i.val < 10 → ∀ j, walk s' (frame d) i j = walk s (frame d) i j) ∧
    s'.mem (frame d) selfEntry = s.mem (frame d) selfEntry

/-- No page takes the place of a table of the kernel, and its pages get no other frames. -/
def SparesKernel (m : Machine) (file : ElfFile) : Prop :=
  (∀ pl ∈ landings m file, ¬ pl.Breaks) ∧
    ∀ i : Fin 1024, i.val < 10 → ∀ j pl, lastOf (landings m file) i j = some pl →
      pageEntry pl.phys = m.mem (frame (m.mem m.cr3 i)) j

theorem startEntries_eq (hb : NewSpace b w d) (i : Fin 1024) :
    startEntries i = present (b.mem (frame d) i) := by
  cases hs : startEntries i with
  | true => exact ((SoundLoad.nil b hb).start_present hb hs).symm
  | false => rw [hb.rest i hs, present_zero]

theorem Spoiled.ne (hb : NewSpace b w d) (h : Spoiled b d a) :
    ∃ i, startEntries i = true ∧ a.mem (frame d) i ≠ b.mem (frame d) i := by
  obtain ⟨i, hi, x, hx, hentry⟩ := h
  refine ⟨i, hi, fun heq => ?_⟩
  have hframe : frame x = frame (b.mem (frame d) i) := by
    rw [← frame_pageEntry, ← hentry, heq]
  rcases of_decide_eq_true hi with hlt | rfl
  · exact (hb.kernel i hlt).2.2 x hx hframe
  · rw [hb.self.2] at hframe
    exact (hb.reach.free x hx).2.2.2 hframe

theorem walk_behind {i : Fin 1024} (h : Reachable a w d) (hp : present (a.mem (frame d) i) = true)
    (j : Fin 1024) : walk (a.setPage w win) (frame d) i j = walk a (frame d) i j := by
  rw [walk, mem_setPage_of_ne h.directory.1, mem_setPage_of_ne (h.tables i hp).1, walk]

theorem outcome_landings (hc : Created m d w b) :
    LoadOutcome b d [] (landings m file) (place d (imagePages file) b).2 := by
  rw [landings, ← hc.free_eq]
  exact (SoundLoad.nil b hc.space).place hc.space (startEntries_eq hc.space) _

theorem kernelKept_iff_of_created (hc : Created m d w b)
    (hcall : createUserSpace m = some (d, b.setPage w win)) (hd : d ≠ 0) :
    KernelKept m file ↔ SparesKernel m file := by
  have hb := hc.space
  have hreach := hb.reach.place (imagePages file)
  obtain ⟨win', hload⟩ : ∃ win', elfLoadSegs file d (b.setPage w win) = _ :=
    elfLoadSegs_spec hb.reach hd
  have hout : LoadOutcome b d [] (landings m file) (place d (imagePages file) b).2 :=
    outcome_landings hc
  generalize (place d (imagePages file) b).2 = a at hload hreach hout
  have hkept : KernelKept m file ↔
      (∀ i : Fin 1024, i.val < 10 → ∀ j, walk (a.setPage w win') (frame d) i j =
        walk (b.setPage w win) (frame d) i j) ∧
      a.mem (frame d) selfEntry = b.mem (frame d) selfEntry := by
    have hdw := hreach.directory.1
    constructor
    · intro h
      obtain ⟨ok', s', hs', hwalk, hself⟩ := h d _ hcall
      cases hs'.symm.trans hload
      rw [mem_setPage_of_ne hdw, mem_setPage_of_ne hdw] at hself
      exact ⟨hwalk, hself⟩
    · rintro ⟨hwalk, hself⟩ d' s hs
      cases hcall.symm.trans hs
      refine ⟨_, _, hload, hwalk, ?_⟩
      rwa [mem_setPage_of_ne hdw, mem_setPage_of_ne hdw]
  rw [hkept]
  rcases hout with ⟨⟨pl, hpl, hbreaks⟩, hspoiled⟩ | ⟨hnot, hsound⟩
  · refine iff_of_false ?_ fun h => h.1 pl hpl hbreaks
    rintro ⟨hwalk, hself⟩
    obtain ⟨i, hi, hne⟩ := hspoiled.ne hb
    rcases of_decide_eq_true hi with hlt | rfl
    · have hfst := congrArg fst (hwalk i hlt i)
      rw [walk, walk, mem_setPage_of_ne hreach.directory.1,
        mem_setPage_of_ne hreach.directory.1] at hfst
      exact hne hfst
    · exact hne hself
  · have hcell : ∀ i : Fin 1024, i.val < 10 → ∀ j, walk (a.setPage w win') (frame d) i j =
        walk (b.setPage w win) (frame d) i j ↔ a.mem (frame (b.mem (frame d) i)) j =
          b.mem (frame (b.mem (frame d) i)) j := by
      intro i hi j
      have hs := startEntries_of_lt hi
      rw [walk_behind hreach (hsound.start_present hb hs), walk_behind hb.reach (hb.kernel i hi).1,
        walk, hsound.start i hs, Prod.mk.injEq]
      exact and_iff_right rfl
    have hword : ∀ i : Fin 1024, i.val < 10 → ∀ j, b.mem (frame (b.mem (frame d) i)) j =
        m.mem (frame (m.mem m.cr3 i)) j := by
      intro i hi j
      rw [hc.kernel i hi, hc.tables i hi]
    refine ⟨fun h => ⟨hnot, fun i hi j pl hlast => ?_⟩, fun h => ⟨fun i hi j => ?_, ?_⟩⟩
    · have heq := (hcell i hi j).mp (h.1 i hi j)
      rwa [hsound.cells i hi j, nil_append, hlast, hword i hi j] at heq
    · rw [hcell i hi j, hsound.cells i hi j, nil_append]
      cases hlast : lastOf (landings m file) i j with
      | none => rfl
      | some pl =>
        rw [hword i hi j]
        exact h.2 i hi j pl hlast
    · exact hsound.start _ (by decide)

theorem elfLoadSegs_zero : elfLoadSegs file 0 s = some (false, s) := if_pos (.inr rfl)

/-- Loading keeps the kernel's translations exactly if the placements spare them. -/
theorem kernelKept_iff (h : m.Booted) : KernelKept m file ↔ SparesKernel m file := by
  have hnone : framesLeft m = [] → SparesKernel m file := by
    intro hleft
    have hplan : landings m file = [] := by rw [landings, hleft, plan_nil]
    refine ⟨fun pl hpl => ?_, fun i _ j pl hlast => ?_⟩
    · rw [hplan] at hpl
      cases hpl
    · rw [hplan] at hlast
      cases hlast
  rcases h.create_cases with ⟨hfree, hcall⟩ | ⟨hcall, hw, hlen⟩ | ⟨d, w, b, win, hcall, hc⟩
  · refine iff_of_true (fun d s hs => ?_) (hnone ?_)
    · cases hcall.symm.trans hs
      exact ⟨false, m, elfLoadSegs_zero, fun _ _ _ => rfl, rfl⟩
    · rw [framesLeft, hfree, drop_nil, drop_nil, ite_self]
  · refine iff_of_true (fun d s hs => ?_) (hnone ?_)
    · rw [hcall] at hs
      cases hs
    · rw [framesLeft, hw]
      exact drop_eq_nil_of_le (by omega)
  · exact kernelKept_iff_of_created hc hcall (h.ne_zero d hc.directory_mem)

/-- The directory at `0x9000`, the tables of the kernel at `0xA000` and that of the windows. -/
def bootDirectory (i : Fin 1024) : Word :=
  if i.val < 10 then BitVec.ofNat 32 (4096 * (10 + i)) ||| userFlags
  else if i = selfEntry then 0x9003
  else if i = windowEntry then 0x14003
  else 0

def bootMemory (f : ℕ) : Page :=
  if f = 9 then bootDirectory
  else if 10 ≤ f ∧ f < 20 then fun j =>
    BitVec.ofNat 32 (4096 * (1024 * (f - 10) + j)) ||| userFlags
  else fun _ => 0

def bootMachine (free : List Word) : Machine where
  mem := bootMemory
  cr3 := 9
  free := free

theorem frame_bootDirectory {i : Fin 1024} (hi : i.val < 10) :
    frame (bootDirectory i) = 10 + i := by
  rw [bootDirectory, if_pos hi, frame_or _ toNat_userFlags_lt, frame, toNat_ofNat,
    Nat.mod_eq_of_lt (by omega), Nat.mul_div_cancel_left _ (by decide)]

theorem directory_bootMachine (free : List Word) :
    (bootMachine free).mem (bootMachine free).cr3 = bootDirectory := rfl

theorem bootMachine_booted {free : List Word} (hnodup : free.Nodup)
    (hlen : free.length ≤ maxFrames) (hfree : ∀ a ∈ free, 4096 ∣ a.toNat ∧ 20 < frame a) :
    (bootMachine free).Booted where
  recursive := by
    constructor
    · rw [directory_bootMachine]
      decide +kernel
    · rw [directory_bootMachine]
      change _ = 9
      decide +kernel
  nodup := hnodup
  length_le := hlen
  ne_zero a ha := by
    rintro rfl
    exact absurd (hfree 0 ha).2 (by decide)
  aligned a ha := (hfree a ha).1
  ne_cr3 a ha := ((by decide : 9 < 20).trans (hfree a ha).2).ne'
  window _ := by
    rw [directory_bootMachine]
    exact ⟨(by decide : 20 ≠ 9), fun a ha => (hfree a ha).2.ne'⟩
  kernel i hi := by
    rw [directory_bootMachine, frame_bootDirectory hi]
    refine ⟨?_, (by omega : 10 + i.val ≠ 9), fun a ha => ?_⟩
    · have hflags : present userFlags = true := by decide
      rw [bootDirectory, if_pos hi, present_or, hflags, Bool.or_true]
    · have := (hfree a ha).2
      omega
  kernel_inj i j hi hj heq := by
    rw [directory_bootMachine, frame_bootDirectory hi, frame_bootDirectory hj] at heq
    exact Fin.ext (Nat.add_left_cancel heq)
  kernel_window _ i hi := by
    have hframe : frame (bootDirectory windowEntry) = 20 := by decide +kernel
    rw [directory_bootMachine, frame_bootDirectory hi]
    omega

def wordsFile (l : List Word) : ElfFile where
  hdr := 0x300000
  bytes p := wordByte (l.getD ((p - 0x300000).toNat / 4) 0)
    ⟨(p - 0x300000).toNat % 4, Nat.mod_lt _ (by decide)⟩

def phdrWords (offset virAddress fileSize memSize : Word) : List Word :=
  [ptLoad, offset, 0, virAddress, fileSize, memSize, 7, 4096]

def elfFile (phdrs : List (List Word)) (data : List Word) : ElfFile :=
  wordsFile ([0x464C457F, 0, 0, 0, 0x30002, 1, 0, 52, 0, 0, 0x200034,
    BitVec.ofNat 32 phdrs.length, 0] ++ phdrs.flatten ++ data)

def onePage (virAddress : Word) : ElfFile := elfFile [phdrWords 0 virAddress 0 4096] []

theorem onePage_kept :
    KernelKept (bootMachine [0x200000, 0x201000, 0x202000]) (onePage 0x40000000) := by
  refine (kernelKept_iff (bootMachine_booted (by decide) (by decide) (by simp [frame]))).mpr ?_
  refine ⟨fun pl hpl hbreaks => ?_, fun i hi j pl hlast => ?_⟩
  · obtain rfl := List.mem_singleton.mp hpl
    exact absurd hbreaks.1 (by decide : pdIndex 0x40000000 ≠ selfEntry)
  · obtain ⟨hpl, -, hat, -⟩ := at_of_lastOf hlast
    obtain rfl := List.mem_singleton.mp hpl
    rw [← hat] at hi
    exact absurd hi (by decide : ¬ (pdIndex 0x40000000).val < 10)

theorem onePage_overwrites : (bootMachine [0x200000, 0x201000]).Booted ∧
    ¬ KernelKept (bootMachine [0x200000, 0x201000]) (onePage 0x100000) := by
  have hbooted : (bootMachine [0x200000, 0x201000]).Booted :=
    bootMachine_booted (by decide) (by decide) (by simp [frame])
  refine ⟨hbooted, ?_⟩
  have hspares : ¬ SparesKernel (bootMachine [0x200000, 0x201000]) (onePage 0x100000) := by
    rintro ⟨-, hcells⟩
    have hcell := hcells (pdIndex 0x100000) (by decide) (ptIndex 0x100000) _
      (lastOf_append_of_at (L := []) ⟨rfl, rfl, rfl⟩)
    exact absurd hcell (by decide +kernel : pageEntry 0x201000 ≠
      bootMemory (frame (bootDirectory (pdIndex 0x100000))) (ptIndex 0x100000))
  rcases hbooted.create_cases with ⟨hfree, -⟩ | ⟨-, -, hlen⟩ | ⟨d, w, b, win, hcall, hc⟩
  · cases hfree
  · cases hlen
  · rwa [kernelKept_iff_of_created hc hcall (hbooted.ne_zero d hc.directory_mem)]

end Aevros
