import Aevros.Vfs.Rules

/-! # The tree of directories stays whole

Every dentry in use is reached from the root, as long as no directory is unlinked that has entries,
is a working directory or is open. `sys_unlink` does not see to that.
-/

namespace Aevros.Vfs

open Runs Chain

namespace State

variable (s : State)

/-- The dentries that the root leads to. -/
inductive Descends : ℕ → Prop
  | root : Descends s.root
  | entry {c : ℕ} {b : Fin 32} {l : List ℕ} : Descends (s.dentries.get c).parent →
    s.Bucket (s.dentries.get c).parent b l → c ∈ l → Descends c

structure Intact : Prop where
  reached : ∀ d ∈ s.dentries.live, s.Descends d
  parent_live : ∀ d ∈ s.dentries.live, (s.dentries.get d).parent ∈ s.dentries.live
  cwd_live : ∀ t task, s.tasks.get t = some task → task.cwd ≠ 0 → task.cwd ∈ s.dentries.live
  file_live : ∀ p ∈ s.files.live, (s.files.get p).dentry ≠ 0 →
    (s.files.get p).dentry ∈ s.dentries.live

/-- A dentry without entries that no task and no open file points to. -/
structure Removable (d : ℕ) : Prop where
  empty : ∀ b, (s.dentries.get d).hashBucket b = 0
  cwd : ∀ t task, s.tasks.get t = some task → task.cwd ≠ d
  file : ∀ p ∈ s.files.live, (s.files.get p).dentry ≠ d

def Returns (e : Event) : Prop :=
  ∀ task, s.tasks.get e.task = some task → (s.perform e.task task e.mem e.call).isSome

def Refuses (e : Event) : Prop :=
  ∀ task path target, s.tasks.get e.task = some task → e.call = .unlink path →
    s.vfsLookup task.cwd path = some target → (∃ b c, s.IsEntry target b c) →
    s.sysUnlink task path = some (vfsErr, s)

structure Guarded : Prop extends Rooted s where
  file_mem : ∀ p ∈ s.files.live, (s.files.get p).dentry = 0 ∨
    (s.files.get p).dentry ∈ s.dentries.live

variable {s}

theorem Tree.descends (h : Tree s) {d : ℕ} (hd : d ∈ s.dentries.live) : s.Descends d := by
  obtain ⟨rank, hrank⟩ := h.ranked
  induction hn : rank d using Nat.strong_induction_on generalizing d with
  | _ n ih =>
    by_cases hroot : d = s.root
    · rw [hroot]
      exact .root
    · have hparent := h.parent_mem d hd
      obtain ⟨name, hname⟩ := h.named d hd
      obtain ⟨l, hl, hentries⟩ := h.buckets _ hparent (dentryHash name)
      exact .entry (ih _ (hn ▸ hrank d hd hroot) hparent rfl) hl
        ((hentries d).mpr ⟨hd, hroot, rfl, name, hname, rfl⟩)

theorem Guarded.install {t p d : ℕ} {fd : Fin 32} (flags : Word) (h : Guarded s)
    (hd : d ∈ s.dentries.live) : Guarded (s.install t fd p (s.newOpen d flags)) where
  toRooted := h.toRooted.setFd rfl rfl rfl
  file_mem q hq := by
    have hput : (s.install t fd p (s.newOpen d flags)).files = s.files.put p (s.newOpen d flags) :=
      rfl
    rw [hput]
    by_cases hqp : q = p
    · rw [hqp, Cells.get_put_self]
      right
      change s.vfsFollowMount d ∈ s.dentries.live
      rwa [h.vfsFollowMount (.inr hd)]
    · rw [Cells.get_put_of_ne hqp]
      exact h.file_mem q ((Finset.mem_insert.mp hq).resolve_left hqp)

theorem Guarded.closeSlot {t p : ℕ} {fd : Fin 32} (h : Guarded s) :
    Guarded (s.closeSlot t fd p) where
  toRooted := h.toRooted.setFd rfl rfl rfl
  file_mem q hq := by
    rw [get_closeSlot_field (g := File.dentry) fun _ => rfl]
    exact h.file_mem q (mem_live_closeSlot.mp hq).1

theorem guarded_kept : State.Kept (fun _ _ => True) (fun _ _ => True) Removable Guarded where
  rooted h := h.toRooted
  made h _ _ hmade := {
    toRooted := h.toRooted.made hmade
    file_mem := by
      rw [hmade.files]
      exact fun p hp => (h.file_mem p hp).imp id fun hmem => hmade.live_subset hmem }
  install flags h _ _ _ _ hd := ⟨h.install flags hd, trivial⟩
  close h _ _ _ _ := ⟨h.closeSlot, fun _ _ => trivial⟩
  remove h hlive hroot hremovable hname hunhash heq := {
    toRooted := h.toRooted.remove hunhash heq hlive hroot hremovable.empty hremovable.cwd hname
    file_mem := by
      obtain ⟨hlive', hfiles, -⟩ := unlink_frame hunhash heq
      rw [hlive', hfiles]
      exact fun p hp => (h.file_mem p hp).imp id fun hmem =>
        Finset.mem_erase.mpr ⟨hremovable.file p hp, hmem⟩ }
  chdir h hd := { toRooted := h.toRooted.setCwd hd, file_mem := h.file_mem }
  spawn h htask hcwd _ := {
    toRooted := h.toRooted.spawn htask hcwd
    file_mem := by
      simp only [files_live_spawn, dentry_spawn, dentries_spawn]
      exact h.file_mem }
  exit h _ := { toRooted := h.toRooted.exit _, file_mem := h.file_mem }

theorem guarded_boot (tty : Bool) : Guarded (boot tty) where
  toRooted := rooted_boot tty
  file_mem _ _ := .inl rfl

theorem Guarded.refuses (h : Guarded s) {e : Event}
    (htidy : Tidy (fun _ _ => True) (fun _ _ => True) Removable s e) : s.Refuses e := by
  intro task path target htask hcall hlookup ⟨b, c, hentry⟩
  have htidy := htidy task htask
  rw [hcall] at htidy
  have hlive : target ∈ s.dentries.live := hentry.2.2.1 ▸ h.parent_mem c hentry.1
  by_cases hroot : target = s.root
  · rw [sysUnlink, hlookup, hroot]
    simp [h.ne_zero h.root_mem]
  · have hremovable := htidy.2 target hlookup (h.ne_zero hlive) hroot
    exact absurd hentry.2.2.1 (h.parent_ne hlive hroot hremovable.empty hentry.1)

theorem Guarded.returns (h : Guarded s) {e : Event}
    (htidy : Tidy (fun _ _ => True) (fun _ _ => True) Removable s e) : s.Returns e := by
  intro task htask
  obtain ⟨s', hcall, -⟩ := guarded_kept.perform h htask htidy
  rw [hcall]
  rfl

end State

open State

/-- The tree stays whole if paths fit, entries are whole, and nothing needed is unlinked. -/
theorem intact_run (tty : Bool) {es : List Event}
    (h : Along step (Tidy (fun _ _ => True) (fun _ _ => True) Removable) (boot tty) es) :
    Intact (run step (boot tty) es) ∧
      Along step (fun s e => s.Returns e ∧ s.Refuses e) (boot tty) es := by
  constructor
  · have hguarded : Guarded (run step (boot tty) es) :=
      h.run_invariant (I := Guarded) (fun _ _ hs htidy => guarded_kept.step hs htidy)
        (guarded_boot tty)
    exact ⟨fun _ hd => hguarded.descends hd, hguarded.parent_mem,
      fun t task htask => (hguarded.cwd_mem t task htask).resolve_left,
      fun p hp => (hguarded.file_mem p hp).resolve_left⟩
  · have hstep : ∀ s e, Guarded s → Tidy (fun _ _ => True) (fun _ _ => True) Removable s e →
        Guarded (step s e) ∧ s.Returns e ∧ s.Refuses e :=
      fun _ _ hs htidy => ⟨guarded_kept.step hs htidy, hs.returns htidy, hs.refuses htidy⟩
    exact h.imp hstep (guarded_boot tty)

def pathA : List Byte := [slash, 0x61]

def pathAB : List Byte := [slash, 0x61, slash, 0x62]

def emptyDirRun : List Event :=
  [⟨0, .mkdir pathA, Memory.plenty 3 4 4⟩, ⟨0, .unlink pathA, Memory.plenty 0 0 0⟩]

theorem emptyDir_removed : Intact (run step (boot true) emptyDirRun) := by
  have hlookup : (step (boot true) ⟨0, .mkdir pathA, Memory.plenty 3 4 4⟩).vfsLookup 1 pathA =
      some 3 := by decide +kernel
  have htidy : Along step (Tidy (fun _ _ => True) (fun _ _ => True) Removable) (boot true)
      emptyDirRun := by
    refine ⟨fun task _ => ⟨⟨.inl rfl, by decide, by decide⟩, ?_, trivial⟩,
      fun task htask => ⟨⟨.inl rfl, by decide, by decide⟩, fun target htarget _ _ => ?_⟩, trivial⟩
    · exact fun _ => ⟨by decide, rfl, rfl⟩
    · cases htarget.symm.trans hlookup
      refine ⟨by decide +kernel, fun t task hget => ?_, fun p _ => Nat.zero_ne_add_one 2⟩
      change (if t = 0 then some _ else none) = some task at hget
      split_ifs at hget
      cases hget
      decide
  exact (intact_run true htidy).1

def fullDirRun : List Event :=
  [⟨0, .mkdir pathA, Memory.plenty 3 4 4⟩, ⟨0, .open pathAB creat, Memory.plenty 4 5 4⟩,
    ⟨0, .unlink pathA, Memory.plenty 0 0 0⟩]

theorem fullDir_unlinked : 4 ∈ (run step (boot true) fullDirRun).dentries.live ∧
      ((run step (boot true) fullDirRun).dentries.get 4).parent = 3 ∧
      3 ∉ (run step (boot true) fullDirRun).dentries.live ∧
      ¬ Intact (run step (boot true) fullDirRun) := by
  have hlive : 4 ∈ (run step (boot true) fullDirRun).dentries.live := by decide +kernel
  have hparent : ((run step (boot true) fullDirRun).dentries.get 4).parent = 3 := by
    decide +kernel
  have hfreed : 3 ∉ (run step (boot true) fullDirRun).dentries.live := by decide +kernel
  exact ⟨hlive, hparent, hfreed, fun h => hfreed (hparent ▸ h.parent_live 4 hlive)⟩

end Aevros.Vfs
