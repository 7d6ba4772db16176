import Aevros.Vfs.IoCalls

/-! # Access modes

`flags & READ_WRITE` holds of a descriptor with either mode, so `sys_read` and `sys_write` enforce
the mode only where it is the right one anyway.
-/

namespace Aevros.Vfs

open State Function Option Prod

section

variable (o : ℕ × Fin 32 → Word)

/-- With which flags each descriptor was opened, after a call. -/
def noteOpen (e : IoEvent) (a : Answer) : ℕ × Fin 32 → Word :=
  match e.call with
  | .open _ flags =>
    match fdOf a.value with
    | none => o
    | some k => update o (e.task, k) flags
  | _ => o

def openedWith (l : List (IoEvent × Answer)) : ℕ × Fin 32 → Word :=
  l.foldl (fun o x => noteOpen o x.1 x.2) o

def FlagsKnown (s : State) : Prop :=
  ∀ x, s.tasks.slot x ≠ 0 → (s.files.get (s.tasks.slot x)).flags = o x

def Granted (s : State) (t : ℕ) (fd : ℤ) (mode : Word) : Prop :=
  ∃ k, fdOf fd = some k ∧ s.tasks.slot (t, k) ≠ 0 ∧ has (o (t, k)) mode = true

end

/-- A file changes only by a write that was granted, and what was not granted is an error. -/
structure Enforced (o : ℕ × Fin 32 → Word) (s : State) (e : IoEvent) (a : Answer) (s' : State) :
    Prop where
  changes : ∀ q ∈ s.inodes.live, (s'.inodes.get q).contents ≠ (s.inodes.get q).contents →
    ∃ fd size buf, e.call = .write fd size buf ∧ Granted o s e.task fd writeOnly
  reads : ∀ fd size typed, e.call = .read fd size typed → ¬ Granted o s e.task fd readOnly →
    a = .err ∧ s' = s
  writes : ∀ fd size buf, e.call = .write fd size buf → ¬ Granted o s e.task fd writeOnly →
    a = .err ∧ s' = s

/-- A descriptor that has a mode at all has this one. -/
def RightMode (o : ℕ × Fin 32 → Word) (s : State) (t : ℕ) (fd : ℤ) (mode : Word) : Prop :=
  ∀ k, fdOf fd = some k → s.tasks.slot (t, k) ≠ 0 → has (o (t, k)) readWrite = true →
    has (o (t, k)) mode = true

def Proper (o : ℕ × Fin 32 → Word) (s : State) (e : IoEvent) : Prop :=
  match e.call with
  | .read fd size _ => RightMode o s e.task fd readOnly ∧ EndsBelow s e.task fd size (2 ^ 32)
  | .write fd size _ => RightMode o s e.task fd writeOnly ∧ EndsBelow s e.task fd size (2 ^ 32)
  | _ => True

variable {T : Finset ℕ} {s s' s'' : State} {e : IoEvent} {a : Answer} {o : ℕ × Fin 32 → Word}
  {t : ℕ} {fd : ℤ} {size mode : Word}

namespace FlagsKnown

theorem advance (ho : FlagsKnown o s) (p : ℕ) (n : Word) :
    FlagsKnown o (s.advance p n) := by
  intro x hx
  rw [tasks_advance] at hx ⊢
  rw [get_advance_field (g := File.flags) fun _ _ => rfl]
  exact ho x hx

theorem install {task : Task} {k : Fin 32} {p d : ℕ} {flags : Word} (h : Sound T s)
    (ho : FlagsKnown o s) (htask : s.tasks.get t = some task) (hfree : p ∉ s.files.live) :
    FlagsKnown (update o (t, k) flags) (s.install t k p (s.newOpen d flags)) := by
  have hset : (s.install t k p (s.newOpen d flags)).tasks.slot =
      update s.tasks.slot (t, k) p := Tasks.slot_setFd htask k p
  intro x hx
  change ((s.files.put p (s.newOpen d flags)).get _).flags = _
  rw [hset] at hx ⊢
  by_cases hxt : x = (t, k)
  · rw [hxt, update_self, update_self, Cells.get_put_self]
    rfl
  · rw [update_of_ne hxt] at hx
    rw [update_of_ne hxt, update_of_ne hxt,
      Cells.get_put_of_ne fun heq : s.tasks.slot x = p => hfree (heq ▸ h.held x hx)]
    exact ho x hx

theorem sysClose {task : Task} (ho : FlagsKnown o s)
    (htask : s.tasks.get t = some task) (fd : ℤ) : FlagsKnown o (s.sysClose t fd).2 := by
  rw [State.sysClose]
  cases fdOf fd with
  | none => exact ho
  | some k =>
    dsimp only
    split_ifs with hzero
    · exact ho
    · intro x hx
      rw [slot_closeSlot htask] at hx ⊢
      rw [get_closeSlot_field (g := File.flags) fun _ => rfl]
      split_ifs at hx ⊢
      · exact absurd rfl hx
      · exact ho x hx

theorem step (h : Sound T s) (ho : FlagsKnown o s) (hstep : IoStep s e a s') :
    FlagsKnown (noteOpen o e a) s' := by
  obtain ⟨u, call, mem⟩ := e
  obtain ⟨task, htask, hcall⟩ := hstep
  cases call with
  | «open» path flags =>
    obtain ⟨⟨r, s₁⟩, hopen, heq⟩ := map_eq_some_iff.mp hcall
    cases heq
    obtain ⟨T', s₂, d, h₂, hfiles, htasks, -, hrest⟩ := h.sysOpen_cases htask hopen
    have ho₂ : FlagsKnown o s₂ := by
      rw [FlagsKnown, hfiles, htasks]
      exact ho
    rcases hrest with ⟨rfl, rfl⟩ | ⟨-, k, rfl, -, hp, rfl⟩
    · exact ho₂
    · dsimp only [noteOpen]
      rw [fdOf_val]
      refine ho₂.install h₂ (htasks ▸ htask) ?_
      rw [hfiles]
      exact Cells.fresh_notMem hp
  | read fd size typed =>
    rcases h.sysRead_cases hcall with ⟨-, -, rfl⟩ | ⟨p, -, -, -, rfl⟩ |
      ⟨p, ram, -, -, -, n, -, -, rfl⟩ | ⟨p, n, -, rfl⟩
    · exact ho
    · exact ho
    · exact ho.advance p n
    · exact ho.advance p n
  | write fd size buf =>
    rcases h.sysWrite_cases hcall with ⟨-, -, rfl⟩ | ⟨p, -, -, -, rfl⟩ |
      ⟨p, ram, inode', -, -, -, -, -, -, -, -, rfl⟩ | ⟨p, -, rfl⟩
    · exact ho
    · exact ho
    · have hsame : FlagsKnown o
          { s with inodes := s.inodes.modify (s.files.get p).inode fun _ => inode' } := ho
      exact hsame.advance p size
    · exact ho.advance p size
  | close fd =>
    cases hcall
    exact ho.sysClose htask fd

theorem run {P : State → IoEvent → Prop} {l : List (IoEvent × Answer)} (h : Sound T s)
    (ho : FlagsKnown o s) (hrun : Trace P s l s') :
    FlagsKnown (openedWith o l) s' ∧ ∃ T', Sound T' s' := by
  induction hrun generalizing T o with
  | nil => exact ⟨ho, T, h⟩
  | cons _ hstep _ ih =>
    obtain ⟨T', h'⟩ := h.step hstep
    exact ih h' (ho.step h hstep)

end FlagsKnown

theorem fileFor_eq_none (ho : FlagsKnown o s) (hmode : RightMode o s t fd mode)
    (hdenied : ¬ Granted o s t fd mode) : s.fileFor t fd mode = none := by
  refine eq_none_iff_forall_not_mem.mpr fun ⟨p, ops⟩ hfile => hdenied ?_
  obtain ⟨k, hk, rfl, hp, -, -, hflags⟩ := fileFor_eq_some hfile
  rw [ho _ hp] at hflags
  exact ⟨k, hk, hp, hflags.elim id (hmode k hk hp)⟩

theorem contents_install {file : File} {k : Fin 32} {p q : ℕ} :
    ((s.install t k p file).inodes.get q).contents = (s.inodes.get q).contents := by
  have hfield : ∀ inode : Inode, inode.addRef.contents = inode.contents := fun _ => rfl
  exact Cells.get_modify_field hfield q

theorem contents_sysClose {q : ℕ} :
    ((s.sysClose t fd).2.inodes.get q).contents = (s.inodes.get q).contents := by
  rw [State.sysClose]
  cases fdOf fd with
  | none => rfl
  | some k =>
    dsimp only
    split_ifs
    · rfl
    · exact inode_closeSlot_field (g := Inode.contents) (fun _ => rfl) q

theorem enforced_of_proper (h : Sound T s) (ho : FlagsKnown o s) (hproper : Proper o s e)
    (hstep : IoStep s e a s') : Enforced o s e a s' := by
  obtain ⟨u, call, mem⟩ := e
  obtain ⟨task, htask, hcall⟩ := hstep
  cases call with
  | «open» path flags =>
    obtain ⟨⟨r, s₁⟩, hopen, heq⟩ := map_eq_some_iff.mp hcall
    cases heq
    obtain ⟨T', s₂, d, -, -, -, hext, hrest⟩ := h.sysOpen_cases htask hopen
    refine ⟨fun q hq hne => absurd ?_ hne, by rintro _ _ _ ⟨⟩, by rintro _ _ _ ⟨⟩⟩
    rcases hrest with ⟨-, rfl⟩ | ⟨-, k, -, -, -, rfl⟩
    · rw [hext.get q hq]
    · rw [contents_install, hext.get q hq]
  | read fd size typed =>
    refine ⟨fun q _ hne => absurd ?_ hne, fun _ _ _ heq hdenied => ?_, by rintro _ _ _ ⟨⟩⟩
    · rcases h.sysRead_cases hcall with ⟨-, -, rfl⟩ | ⟨p, -, -, -, rfl⟩ |
        ⟨p, ram, -, -, -, n, -, -, rfl⟩ | ⟨p, n, -, rfl⟩
      · rfl
      · rfl
      · rw [inodes_advance]
      · rw [inodes_advance]
    · obtain ⟨rfl, -, -⟩ := Io.read.inj heq
      have hnone := fileFor_eq_none ho hproper.1 hdenied
      change s.sysRead _ _ _ _ = _ at hcall
      rw [sysRead, hnone] at hcall
      cases hcall
      exact ⟨rfl, rfl⟩
  | write fd size buf =>
    refine ⟨fun q _ hne => ⟨fd, size, buf, rfl, ?_⟩, by rintro _ _ _ ⟨⟩,
      fun _ _ _ heq hdenied => ?_⟩
    · rcases h.sysWrite_cases hcall with ⟨-, -, rfl⟩ | ⟨p, -, -, -, rfl⟩ |
        ⟨p, ram, inode', hfile, -, -, -, -, -, -, -, rfl⟩ | ⟨p, -, rfl⟩
      · exact absurd rfl hne
      · exact absurd rfl hne
      · by_contra hdenied
        rw [fileFor_eq_none ho hproper.1 hdenied] at hfile
        cases hfile
      · exact absurd (by rw [inodes_advance]) hne
    · obtain ⟨rfl, -, -⟩ := Io.write.inj heq
      have hnone := fileFor_eq_none ho hproper.1 hdenied
      change s.sysWrite _ _ _ _ _ = _ at hcall
      rw [sysWrite, hnone] at hcall
      cases hcall
      exact ⟨rfl, rfl⟩
  | close fd =>
    cases hcall
    exact ⟨fun q _ hne => absurd contents_sysClose hne, by rintro _ _ _ ⟨⟩, by rintro _ _ _ ⟨⟩⟩

theorem returns_of_proper (h : Sound T s) (hproper : Proper o s e)
    (htask : ∃ task, s.tasks.get e.task = some task)
    (hio : ∀ path flags, e.call ≠ .open path flags)
    (hend : ∀ fd size buf, e.call = .write fd size buf →
      EndsBelow s e.task fd size (2 ^ 30 + 1)) : ∃ a s', IoStep s e a s' := by
  obtain ⟨u, call, mem⟩ := e
  obtain ⟨task, htask⟩ := htask
  cases call with
  | «open» path flags => exact absurd rfl (hio path flags)
  | read fd size typed =>
    obtain ⟨a, s', hcall⟩ := h.sysRead_isSome hproper.2 typed
    exact ⟨a, s', task, htask, hcall⟩
  | write fd size buf =>
    obtain ⟨a, s', hcall⟩ := h.sysWrite_isSome (hend fd size buf rfl) buf mem
    exact ⟨a, s', task, htask, hcall⟩
  | close fd => exact ⟨_, _, task, htask, rfl⟩

/-- A call that uses a descriptor as it was opened keeps to the modes, and short ones return. -/
theorem access_enforced {l : List (IoEvent × Answer)} (h : Sound T s) (ho : FlagsKnown o s)
    (hrun : Trace (fun _ _ => True) s l s') (hproper : Proper (openedWith o l) s' e) :
    (∀ a s'', IoStep s' e a s'' → Enforced (openedWith o l) s' e a s'') ∧
      ((∃ task, s'.tasks.get e.task = some task) → (∀ path flags, e.call ≠ .open path flags) →
        (∀ fd size buf, e.call = .write fd size buf →
          EndsBelow s' e.task fd size (2 ^ 30 + 1)) → ∃ a s'', IoStep s' e a s'') := by
  obtain ⟨ho', T', h'⟩ := ho.run h hrun
  exact ⟨fun a s'' hstep => enforced_of_proper h' ho' hproper hstep,
    returns_of_proper h' hproper⟩

def bootFlags (x : ℕ × Fin 32) : Word := ((boot true).files.get ((boot true).tasks.slot x)).flags

def openF (flags : Word) : IoEvent :=
  ⟨0, .open [slash, 0x66] (creat ||| flags), Memory.plenty 3 4 4⟩

def writeF : IoEvent := ⟨0, .write 3 1 fun _ => 0x61, Memory.plenty 3 4 4⟩

def afterIo (s : State) (e : IoEvent) : State :=
  (((s.tasks.get e.task).bind fun task => s.io e.task task e.mem e.call).map snd).getD s

theorem write_granted : Enforced (openedWith bootFlags [(openF writeOnly, ⟨3, []⟩)])
    (afterIo (boot true) (openF writeOnly)) writeF ⟨1, []⟩
    (afterIo (afterIo (boot true) (openF writeOnly)) writeF) := by
  have hrun : Trace (fun _ _ => True) (boot true) [(openF writeOnly, ⟨3, []⟩)]
      (afterIo (boot true) (openF writeOnly)) :=
    .cons trivial ⟨_, rfl, rfl⟩ .nil
  have hproper : Proper (openedWith bootFlags [(openF writeOnly, ⟨3, []⟩)])
      (afterIo (boot true) (openF writeOnly)) writeF := by
    constructor
    · intro k hk _ _
      obtain rfl : k = 3 := some.inj (hk.symm.trans (by decide))
      decide +kernel
    · intro k hk _
      obtain rfl : k = 3 := some.inj (hk.symm.trans (by decide))
      decide +kernel
  exact (access_enforced (sound_boot true) (fun _ _ => rfl) hrun hproper).1 _ _ ⟨_, rfl, rfl⟩

theorem write_to_readOnly :
    IoStep (boot true) (openF readOnly) ⟨3, []⟩ (afterIo (boot true) (openF readOnly)) ∧
      IoStep (afterIo (boot true) (openF readOnly)) writeF ⟨1, []⟩
        (afterIo (afterIo (boot true) (openF readOnly)) writeF) ∧
      ((afterIo (afterIo (boot true) (openF readOnly)) writeF).inodes.get 4).contents = [0x61] ∧
      ¬ Enforced (openedWith bootFlags [(openF readOnly, ⟨3, []⟩)])
        (afterIo (boot true) (openF readOnly)) writeF ⟨1, []⟩
        (afterIo (afterIo (boot true) (openF readOnly)) writeF) := by
  refine ⟨⟨_, rfl, rfl⟩, ⟨_, rfl, rfl⟩, by decide +kernel, fun h => ?_⟩
  obtain ⟨herr, -⟩ := h.writes 3 1 _ rfl (by
    rintro ⟨k, hk, -, hflags⟩
    obtain rfl : k = 3 := some.inj (hk.symm.trans (by decide))
    revert hflags
    decide +kernel)
  revert herr
  decide

end Aevros.Vfs
