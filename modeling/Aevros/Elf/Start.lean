import Aevros.Elf.Plan

/-! # A space to load into

`create_user_space` takes a frame for the directory, and one for the table of the windows if that
has to be made. What it returns is a space to load into.
-/

namespace Aevros

open Machine

/-- The tables of the kernel are there, each in a frame of its own that is not free. -/
structure Machine.Booted (m : Machine) : Prop extends m.Stocked where
  kernel : ∀ i : Fin 1024, i.val < 10 → present (m.mem m.cr3 i) = true ∧
    frame (m.mem m.cr3 i) ≠ m.cr3 ∧ ∀ a ∈ m.free, frame a ≠ frame (m.mem m.cr3 i)
  kernel_inj : ∀ i j : Fin 1024, i.val < 10 → j.val < 10 →
    frame (m.mem m.cr3 i) = frame (m.mem m.cr3 j) → i = j
  kernel_window : present (m.mem m.cr3 windowEntry) = true → ∀ i : Fin 1024, i.val < 10 →
    frame (m.mem m.cr3 i) ≠ frame (m.mem m.cr3 windowEntry)

structure Machine.Ready (m : Machine) (w : ℕ) : Prop extends m.Supply w where
  kernel : ∀ i : Fin 1024, i.val < 10 → present (m.mem m.cr3 i) = true ∧
    frame (m.mem m.cr3 i) ≠ m.cr3 ∧ ∀ a ∈ m.free, frame a ≠ frame (m.mem m.cr3 i)
  kernel_inj : ∀ i j : Fin 1024, i.val < 10 → j.val < 10 →
    frame (m.mem m.cr3 i) = frame (m.mem m.cr3 j) → i = j
  kernel_window : ∀ i : Fin 1024, i.val < 10 → frame (m.mem m.cr3 i) ≠ w

def framesLeft (m : Machine) : List Word :=
  if present (m.mem m.cr3 windowEntry) then m.free.drop 1 else m.free.drop 2

variable {m : Machine} {w : ℕ} {d t : Word} {rest : List Word} {i j : Fin 1024}

def spaceAt (m : Machine) (d : Word) (rest : List Word) : Machine :=
  ({ m with free := rest } : Machine).setPage (frame d) (newDirectory m d)

theorem newDirectory_kernel (hi : i.val < 10) : newDirectory m d i = m.mem m.cr3 i := by
  have hself : i ≠ selfEntry := by
    rintro rfl
    exact absurd hi (by decide)
  rw [newDirectory, if_neg hself, if_pos hi]

theorem newDirectory_rest (hi : startEntries i = false) : newDirectory m d i = 0 := by
  obtain ⟨hlt, hself⟩ := not_or.mp (of_decide_eq_false hi)
  rw [newDirectory, if_neg hself, if_neg hlt]

theorem mem_spaceAt_self : (spaceAt m d rest).mem (frame d) = newDirectory m d :=
  mem_setPage_self

theorem Machine.Ready.newSpace (h : m.Ready w) (hfree : m.free = d :: rest) :
    NewSpace (spaceAt m d rest) w d := by
  have hd := mem_free hfree
  have hrest : ∀ x ∈ rest, x ∈ m.free := fun x hx => mem_free_of_rest hfree hx
  have hnodup := hfree ▸ h.nodup
  rw [List.nodup_cons] at hnodup
  have hself : present (newDirectory m d selfEntry) = true ∧
      frame (newDirectory m d selfEntry) = frame d := by
    constructor
    · have hone : present pagePresent = true := by decide
      rw [newDirectory, if_pos rfl, present_or, present_or, hone, Bool.or_true]
      rfl
    · rw [newDirectory, if_pos rfl, frame_or _ (by decide), frame_or _ (by decide)]
  constructor
  · refine ⟨(h.wired.withFree rest).setPage (h.ne_cr3 d hd), ⟨h.ne_window d hd, h.ne_cr3 d hd⟩,
      fun i hi => ?_, fun x hx => ⟨h.ne_zero x (hrest x hx), h.ne_window x (hrest x hx),
        h.ne_cr3 x (hrest x hx), fun heq => ?_⟩⟩
    · rw [mem_spaceAt_self] at hi ⊢
      cases hs : startEntries i with
      | true =>
        rcases of_decide_eq_true hs with hlt | rfl
        · rw [newDirectory_kernel hlt]
          exact ⟨h.kernel_window i hlt, (h.kernel i hlt).2.1⟩
        · rw [hself.2]
          exact ⟨h.ne_window d hd, h.ne_cr3 d hd⟩
      | false =>
        rw [newDirectory_rest hs] at hi
        cases hi
    · exact hnodup.1 (h.frame_inj (hrest x hx) hd heq ▸ hx)
  · exact hnodup.2
  · exact fun x hx => h.aligned x (hrest x hx)
  · rw [mem_spaceAt_self]
    exact hself
  · intro i hi
    rw [mem_spaceAt_self, newDirectory_kernel hi]
    obtain ⟨hp, -, hnot⟩ := h.kernel i hi
    exact ⟨hp, (hnot d hd).symm, fun x hx => hnot x (hrest x hx)⟩
  · intro i j hi hj heq
    rw [mem_spaceAt_self, newDirectory_kernel hi, newDirectory_kernel hj] at heq
    exact h.kernel_inj i j hi hj heq
  · intro i hi
    rw [mem_spaceAt_self]
    exact newDirectory_rest hi

theorem Machine.Ready.create (h : m.Ready w) (hfree : m.free = d :: rest) :
    ∃ win, createUserSpace m = some (d, (spaceAt m d rest).setPage w win) :=
  createUserSpace_spec h.wired hfree (h.ne_zero d (mem_free hfree))
    (h.ne_window d (mem_free hfree)) (h.ne_cr3 d (mem_free hfree))

section Absent

variable (h : m.Booted) (habsent : present (m.mem m.cr3 windowEntry) = false)

include h

theorem Machine.Booted.mem_install_kernel (hfree : m.free = d :: t :: rest) (hi : i.val < 10) :
    (m.install t (d :: rest)).mem m.cr3 i = m.mem m.cr3 i := by
  have hne : i ≠ windowEntry := by
    rintro rfl
    exact absurd hi (by decide)
  exact mem_install_cr3 (h.ne_cr3 t (window_mem hfree)) hne

theorem Machine.Booted.ready_install (hfree : m.free = d :: t :: rest) :
    (m.install t (d :: rest)).Ready (frame t) := by
  refine ⟨h.supply_install hfree, fun i hi => ?_, fun i j hi hj heq => ?_, fun i hi => ?_⟩
  · rw [cr3_install, h.mem_install_kernel hfree hi]
    obtain ⟨hp, hc, hnot⟩ := h.kernel i hi
    exact ⟨hp, hc, fun a ha => hnot a (mem_rest hfree ha)⟩
  · rw [cr3_install, h.mem_install_kernel hfree hi, h.mem_install_kernel hfree hj] at heq
    exact h.kernel_inj i j hi hj heq
  · rw [cr3_install, h.mem_install_kernel hfree hi]
    exact ((h.kernel i hi).2.2 t (window_mem hfree)).symm

include habsent

theorem Machine.Booted.create_eq_install (hfree : m.free = d :: t :: rest) :
    createUserSpace m = createUserSpace (m.install t (d :: rest)) := by
  have hd0 : d ≠ 0 := h.ne_zero d (mem_free hfree)
  rw [createUserSpace, createUserSpace, pmmAlloc_cons hfree,
    pmmAlloc_cons (free_install t (d :: rest))]
  dsimp only
  rw [if_neg hd0, if_neg hd0, h.mapPage_window hfree habsent]
  rfl

theorem Machine.Booted.create_of_singleton (hfree : m.free = [d]) : createUserSpace m = none := by
  obtain ⟨hmap, hset⟩ := h.window_absent (d := d) habsent
  rw [createUserSpace, pmmAlloc_cons hfree]
  dsimp only
  rw [if_neg (h.ne_zero d (mem_free hfree)), hmap, Option.bind_eq_bind, Option.bind_some, hset]
  rfl

end Absent

structure Created (m : Machine) (d : Word) (w : ℕ) (b : Machine) : Prop where
  space : NewSpace b w d
  stack : present (m.mem m.cr3 windowEntry) = true ∧ m.free = d :: b.free ∨
    present (m.mem m.cr3 windowEntry) = false ∧ ∃ t, m.free = d :: t :: b.free
  kernel : ∀ i : Fin 1024, i.val < 10 → b.mem (frame d) i = m.mem m.cr3 i
  tables : ∀ i : Fin 1024, i.val < 10 →
    b.mem (frame (m.mem m.cr3 i)) = m.mem (frame (m.mem m.cr3 i))

theorem Created.directory_mem {b : Machine} (h : Created m d w b) : d ∈ m.free := by
  rcases h.stack with ⟨-, hfree⟩ | ⟨-, t, hfree⟩
  · exact mem_free hfree
  · exact mem_free hfree

theorem Created.free_eq {b : Machine} (h : Created m d w b) : b.free = framesLeft m := by
  rcases h.stack with ⟨hw, hfree⟩ | ⟨hw, t, hfree⟩
  · rw [framesLeft, if_pos hw, hfree]
    rfl
  · rw [framesLeft, hw, hfree]
    rfl

theorem Machine.Booted.create_cases (h : m.Booted) : m.free = [] ∧ createUserSpace m = some (0, m) ∨
      createUserSpace m = none ∧ present (m.mem m.cr3 windowEntry) = false ∧ m.free.length = 1 ∨
      ∃ d w b win, createUserSpace m = some (d, b.setPage w win) ∧ Created m d w b := by
  cases hw : present (m.mem m.cr3 windowEntry) with
  | true =>
    cases hfree : m.free with
    | nil => exact .inl ⟨rfl, createUserSpace_nil hfree⟩
    | cons d rest =>
      have hready : m.Ready (frame (m.mem m.cr3 windowEntry)) :=
        ⟨h.supply hw, h.kernel, h.kernel_inj, h.kernel_window hw⟩
      obtain ⟨win, hcall⟩ := hready.create hfree
      refine .inr (.inr ⟨d, _, _, win, hcall, hready.newSpace hfree, .inl ⟨hw, hfree⟩, ?_, ?_⟩)
      · intro i hi
        rw [mem_spaceAt_self, newDirectory_kernel hi]
      · intro i hi
        exact mem_setPage_of_ne ((h.kernel i hi).2.2 d (mem_free hfree)).symm
  | false =>
    match hfree : m.free with
    | [] => exact .inl ⟨rfl, createUserSpace_nil hfree⟩
    | [d] => exact .inr (.inl ⟨h.create_of_singleton hw hfree, rfl, rfl⟩)
    | d :: t :: rest =>
      have hready := h.ready_install hfree
      obtain ⟨win, hcall⟩ := hready.create (free_install t (d :: rest))
      rw [← h.create_eq_install hw hfree] at hcall
      refine .inr (.inr ⟨d, _, _, win, hcall, hready.newSpace (free_install t (d :: rest)),
        .inr ⟨hw, t, hfree⟩, ?_, ?_⟩)
      · intro i hi
        rw [mem_spaceAt_self, newDirectory_kernel hi, cr3_install, h.mem_install_kernel hfree hi]
      · intro i hi
        obtain ⟨-, hc, hnot⟩ := h.kernel i hi
        refine (mem_setPage_of_ne (hnot d (mem_free hfree)).symm).trans ?_
        rw [mem_install_of_ne (hnot t (window_mem hfree)).symm hc]

end Aevros
