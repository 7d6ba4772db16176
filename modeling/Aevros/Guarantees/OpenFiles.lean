import Aevros.Vfs.Slots

/-! # Lifetime of open files

A file counts the descriptors that refer to it, and the last one that is closed frees it. This
holds as long as no task gets descriptors by `do_fork` or from a checkpoint, which do not count
them.
-/

namespace Aevros.Vfs

open Runs Holders State Option Finset

variable {s s' : State} {t p : ℕ} {task : Task} {fd : Fin 32} {file : File} {c : Copying}

/-- A file counts its descriptors and is freed with the last of them. -/
structure FilesKept (s : State) : Prop where
  counted : ∀ p ∈ s.files.live, (s.files.get p).refCount = (s.fileSlots p).card
  used : ∀ p ∈ s.files.live, (s.fileSlots p).Nonempty
  held : ∀ x, s.tasks.slot x ≠ 0 → s.tasks.slot x ∈ s.files.live

theorem FilesKept.of_card (hcounted : ∀ p ∈ s.files.live,
    (s.files.get p).refCount = (s.fileSlots p).card ∧ 0 < (s.fileSlots p).card)
    (hheld : ∀ x, s.tasks.slot x ≠ 0 → s.tasks.slot x ∈ s.files.live) : FilesKept s where
  counted p hp := (hcounted p hp).1
  used p hp := card_pos.mp (hcounted p hp).2
  held := hheld

section

variable (h : FilesKept s)

include h

theorem FilesKept.card_pos (hp : p ∈ s.files.live) :
    0 < (s.fileSlots p).card := Finset.card_pos.mpr (h.used p hp)

theorem FilesKept.congr (hfiles : s'.files = s.files) (hslots : s'.tasks.slots = s.tasks.slots)
    (hslot : s'.tasks.slot = s.tasks.slot) : FilesKept s' := by
  have hsame : ∀ p, s'.fileSlots p = s.fileSlots p := by
    intro p
    rw [fileSlots, hslots]
    exact holders_congr fun x _ => by rw [fileOf, fileOf, hslot]
  refine .of_card (fun p hp => ?_) fun x hx => ?_
  · rw [hfiles] at hp ⊢
    rw [hsame]
    exact ⟨h.counted p hp, h.card_pos hp⟩
  · rw [hslot] at hx ⊢
    rw [hfiles]
    exact h.held x hx

theorem FilesKept.fileSlots_eq_empty (hp : p ≠ 0) (hfree : p ∉ s.files.live) :
    s.fileSlots p = ∅ := by
  refine eq_empty_of_forall_notMem fun x hx => hfree ?_
  rw [mem_fileSlots hp] at hx
  rw [← hx]
  exact h.held x (hx ▸ hp)

theorem FilesKept.install (htask : s.tasks.get t = some task) (hfd : task.fdTable fd = 0)
    (hp : p ≠ 0) (hfree : p ∉ s.files.live) (hone : file.refCount = 1) :
    FilesKept (s.install t fd p file) := by
  have hempty := h.fileSlots_eq_empty hp hfree
  have hcard : ∀ q, ((s.install t fd p file).fileSlots q).card =
      (s.fileSlots q).card + if p = q then 1 else 0 := card_fileSlots_install htask hfd hp
  refine .of_card (fun q hq => ?_) (held_install htask h.held)
  · change ((s.files.put p file).get q).refCount = _ ∧ _
    by_cases hqp : p = q
    · subst hqp
      rw [Cells.get_put_self, hcard, hempty, if_pos rfl, hone]
      exact ⟨rfl, Nat.one_pos⟩
    · have hq := (mem_insert.mp hq).resolve_left (Ne.symm hqp)
      rw [Cells.get_put_of_ne (Ne.symm hqp), hcard, if_neg hqp]
      exact ⟨h.counted q hq, h.card_pos hq⟩

end

section Close

variable (htask : s.tasks.get t = some task) (hslot : s.tasks.slot (t, fd) = p) (hp : p ≠ 0)

include htask hslot hp

theorem FilesKept.closeSlot (h : FilesKept s) : FilesKept (s.closeSlot t fd p) := by
  have hcard := card_fileSlots_closeSlot htask hslot hp
  have hlive : p ∈ s.files.live := hslot ▸ h.held (t, fd) (hslot ▸ hp)
  have hrefs := h.counted p hlive
  refine .of_card (fun q hq => ?_) fun x hx => ?_
  · obtain ⟨hqlive, hmore⟩ := mem_live_closeSlot.mp hq
    have hcounted := h.counted q hqlive
    have hpos := h.card_pos hqlive
    have hsame := hcard q
    rw [refCount_closeSlot hq]
    by_cases hqp : p = q
    · subst hqp
      rw [if_pos rfl] at hsame ⊢
      omega
    · rw [if_neg hqp] at hsame ⊢
      omega
  · exact held_closeSlot htask hslot hp h.held hrefs.ge x hx

end Close

theorem FilesKept.sysClose (h : FilesKept s) (htask : s.tasks.get t = some task) (fd : ℤ) :
    FilesKept (s.sysClose t fd).2 := by
  rw [State.sysClose]
  cases fdOf fd with
  | none => exact h
  | some fd =>
    dsimp only
    split_ifs with hzero
    · exact h
    · exact h.closeSlot htask rfl hzero

theorem FilesKept.spawn (h : FilesKept s) (htask : s.tasks.get t = some task) (cwd : ℕ)
    (hc : c.fileRefs = 1 ∨ ∀ i, ¬ s.Takes c task.fdTable i) : FilesKept (s.spawn c task cwd) := by
  refine .of_card (fun p hp => ?_) (held_spawn s c task cwd htask h.held)
  · rw [files_live_spawn] at hp
    have hcount := h.counted p hp
    have hpos := h.card_pos hp
    have hrefs : ((s.spawn c task cwd).files.get p).refCount = _ :=
      (copied_copyFds s c task.fdTable).file_refs p
    rw [hrefs, card_fileSlots_spawn]
    rcases hc with hone | hnone
    · rw [hone]
      omega
    · have hzero : (List.finRange 32).countP
          (fun i => s.Takes c task.fdTable i ∧ task.fdTable i = p) = 0 :=
        List.countP_eq_zero.mpr fun i _ => by simp [hnone i]
      rw [hzero]
      omega

variable {path : List Byte} {flags : Word} {mem : Memory} {r : ℤ}

/-- A call that gives no descriptors away without counting them. -/
def CountsCopies (s : State) (e : Event) : Prop :=
  ∀ task, s.tasks.get e.task = some task → match e.call with
    | .fork ok => ok = true → ∀ i, ¬ s.Takes forkFds task.fdTable i
    | .restore _ present _ ok => ok = true → ∀ i, present i = true → task.fdTable i = 0
    | _ => True

theorem filesKept_boot (tty : Bool) : FilesKept (boot tty) := by
  cases tty with
  | false =>
    refine .of_card (fun p hp => absurd hp (notMem_empty p)) fun x hx => ?_
    cases (slot_boot hx).1
  | true =>
    have hcounted : ∀ p ∈ ({1, 2, 3} : Finset ℕ), ((boot true).files.get p).refCount =
        ((boot true).fileSlots p).card ∧ 0 < ((boot true).fileSlots p).card := by decide +kernel
    exact .of_card hcounted fun x hx => (slot_boot hx).2

/-- Closing a descriptor frees its file exactly if it was the last one. -/
def ClosesLast (s : State) : Prop :=
  ∀ t (fd : Fin 32), s.tasks.slot (t, fd) ≠ 0 →
    (s.tasks.slot (t, fd) ∉ (s.sysClose t fd.val).2.files.live ↔
      s.fileSlots (s.tasks.slot (t, fd)) = {(t, fd)})

section

variable (h : FilesKept s)

include h

section

variable (htask : s.tasks.get t = some task)

include htask

theorem FilesKept.sysOpen (hcall : s.sysOpen t task path flags mem = some (r, s')) :
    FilesKept s' := by
  obtain ⟨d₀, d, s₁, -, hmade, hrest⟩ := sysOpen_cases hcall
  obtain ⟨hfiles, htasks⟩ := findOrCreate_files hmade
  have h₁ : FilesKept s₁ := h.congr hfiles (by rw [htasks]) (by rw [htasks])
  rcases hrest with ⟨-, -, rfl⟩ | ⟨-, hopen⟩
  · exact h₁
  · rcases openDentry_cases hopen with ⟨-, rfl⟩ | ⟨fd, -, hfd, hp, rfl⟩
    · exact h₁
    · exact h₁.install (htasks ▸ htask) hfd hp (Cells.fresh_notMem hp) rfl

theorem FilesKept.viaFile {b : Bool} (hcall : s.viaFile t task path mem = some (b, s')) :
    FilesKept s' := by
  obtain ⟨r, s₂, hopen, ⟨-, rfl⟩ | ⟨-, rfl⟩⟩ := viaFile_cases hcall
  · exact h.sysOpen htask hopen
  · obtain ⟨task', htask'⟩ := get_sysOpen htask hopen
    exact (h.sysOpen htask hopen).sysClose htask' r

theorem FilesKept.sysExit : FilesKept (s.sysExit t) := by
  have hturn : ∀ s task fd, FilesKept s → s.tasks.get t = some task →
      FilesKept (closeFd t s fd) := by
    intro s task fd hs htask
    rw [closeFd]
    split_ifs with hzero
    · exact hs
    · exact hs.closeSlot htask rfl hzero
  obtain ⟨s₁, hkept, htasks, hslot, hexit⟩ := sysExit_cases hturn h htask
  exact hkept.congr (by rw [hexit]) (by rw [htasks]; rfl) hslot

omit htask in
theorem FilesKept.sysMkdir (hcall : s.sysMkdir task path mem = some (r, s')) : FilesKept s' := by
  rcases sysMkdir_cases hcall with rfl | ⟨parent, name, -, hparent, rfl⟩
  · exact h
  · obtain ⟨heq, -⟩ | ⟨-, -, heq⟩ : _ ∨ _ ∧ _ ∧ (s.ramfsMkdir parent name mem).2 = _ :=
      ramfsMkdir_cases hparent
    · rw [heq]
      exact h.congr rfl rfl rfl
    · rw [heq]
      exact h.congr rfl rfl rfl

omit htask in
theorem FilesKept.sysUnlink (hcall : s.sysUnlink task path = some (r, s')) : FilesKept s' := by
  rcases sysUnlink_cases hcall with rfl | ⟨target, name, s₁, -, -, -, -, -, hunhash, rfl⟩
  · exact h
  · obtain ⟨hfiles, -, htasks, -, -⟩ := unhash_frame hunhash
    obtain ⟨hfiles', htasks', -, -⟩ :=
      releaseInode_frame (s := s₁) (s.dentries.get target).inode
    exact h.congr (hfiles'.trans hfiles) (congrArg Tasks.slots (htasks'.trans htasks))
      (congrArg Tasks.slot (htasks'.trans htasks))

omit htask in
theorem FilesKept.sysChdir (hcall : s.sysChdir t task path = some (r, s')) : FilesKept s' := by
  rcases sysChdir_cases hcall with rfl | ⟨target, -, -, rfl⟩
  · exact h
  · exact h.congr rfl rfl (Tasks.slot_setCwd target)

theorem FilesKept.execUser (ok : Bool) : FilesKept (s.execUser task ok) := by
  rw [State.execUser]
  split_ifs
  · exact h.spawn htask _ (.inl rfl)
  · exact h

theorem FilesKept.perform {call : Call} (hcond : CountsCopies s ⟨t, call, mem⟩)
    (hcall : s.perform t task mem call = some s') : FilesKept s' := by
  have hcond := hcond task htask
  cases call with
  | «open» path flags =>
    obtain ⟨⟨r, s'⟩, hres, rfl⟩ := map_eq_some_iff.mp hcall
    exact h.sysOpen htask hres
  | close fd =>
    cases hcall
    exact h.sysClose htask fd
  | mkdir path =>
    obtain ⟨⟨r, s'⟩, hres, rfl⟩ := map_eq_some_iff.mp hcall
    exact h.sysMkdir hres
  | unlink path =>
    obtain ⟨⟨r, s'⟩, hres, rfl⟩ := map_eq_some_iff.mp hcall
    exact h.sysUnlink hres
  | chdir path =>
    obtain ⟨⟨r, s'⟩, hres, rfl⟩ := map_eq_some_iff.mp hcall
    exact h.sysChdir hres
  | fork ok =>
    cases hcall
    rw [doFork]
    split_ifs with hok
    · exact h.spawn htask _ (.inr (hcond hok))
    · exact h
  | create ok =>
    cases hcall
    rw [createProcess]
    split_ifs
    · exact h.spawn htask _ (.inl rfl)
    · exact h
  | execUser ok =>
    cases hcall
    exact h.execUser htask ok
  | exec path ok =>
    obtain ⟨⟨opened, s₁⟩, hfile, hcall⟩ := bind_eq_some_iff.mp hcall
    cases hcall
    have h₁ := h.viaFile htask hfile
    rw [← tasks_viaFile htask hfile] at htask
    split_ifs
    · exact h₁.execUser htask ok
    · exact h₁
  | restore path present offset ok =>
    obtain ⟨⟨opened, s₁⟩, hfile, hcall⟩ := bind_eq_some_iff.mp hcall
    cases hcall
    have h₁ := h.viaFile htask hfile
    rw [← tasks_viaFile htask hfile] at htask
    split_ifs with hok
    · exact h₁.spawn htask _ (.inr fun i htakes => htakes.1 (hcond hok.2 i htakes.2))
    · exact h₁
  | exit =>
    obtain rfl := some.inj hcall
    exact h.sysExit htask

end

theorem FilesKept.step {e : Event} (hcond : CountsCopies s e) : FilesKept (step s e) := by
  rw [Vfs.step]
  cases htask : s.tasks.get e.task with
  | none => exact h
  | some task =>
    dsimp only
    cases hcall : s.perform e.task task e.mem e.call with
    | none => exact h
    | some s' => exact h.perform htask hcond hcall

theorem FilesKept.closesLast : ClosesLast s := by
  intro t fd hslot
  have hlive := h.held _ hslot
  have hmem : (t, fd) ∈ s.fileSlots (s.tasks.slot (t, fd)) := (mem_fileSlots hslot).mpr rfl
  have hclose : (s.sysClose t fd.val).2 = s.closeSlot t fd (s.tasks.slot (t, fd)) := by
    rw [State.sysClose, fdOf_val]
    exact congrArg Prod.snd (if_neg hslot)
  rw [hclose, mem_live_closeSlot, h.counted _ hlive]
  constructor
  · intro hnot
    have hle : (s.fileSlots (s.tasks.slot (t, fd))).card ≤ 1 := by
      by_contra hlt
      exact hnot ⟨hlive, fun _ => not_le.mp hlt⟩
    exact (card_le_one_iff_subset_singleton.mp hle).elim fun y hy => by
      have hy' := mem_singleton.mp (hy hmem)
      rw [← hy'] at hy
      exact hy.antisymm (singleton_subset_iff.mpr hmem)
  · rintro heq ⟨-, hmore⟩
    have hlt := hmore rfl
    rw [heq] at hlt
    exact absurd hlt (lt_irrefl 1)

end

/-- If descriptors are counted when copied, a file is freed exactly when the last is closed. -/
theorem filesKept_run (tty : Bool) {es : List Event} (h : Along step CountsCopies (boot tty) es) :
    FilesKept (run step (boot tty) es) ∧ ClosesLast (run step (boot tty) es) := by
  have hkept := h.run_invariant (fun _ _ hs hcond => hs.step hcond) (filesKept_boot tty)
  exact ⟨hkept, hkept.closesLast⟩

def rootPath : List Byte := [slash]

def sharedRun (call : Call) : List Event :=
  [⟨0, .open rootPath readOnly, Memory.plenty 0 0 4⟩, ⟨0, call, Memory.plenty 0 0 5⟩,
    ⟨0, .close 3, Memory.plenty 0 0 5⟩]

theorem exec_keeps_files : FilesKept (run step (boot true) (sharedRun (.execUser true))) := by
  have hcond : Along step CountsCopies (boot true) (sharedRun (.execUser true)) :=
    ⟨fun _ _ => trivial, fun _ _ => trivial, fun _ _ => trivial, trivial⟩
  exact (filesKept_run true hcond).1

theorem fork_loses_file : (run step (boot true) (sharedRun (.fork true))).tasks.slot (1, 3) = 4 ∧
      4 ∉ (run step (boot true) (sharedRun (.fork true))).files.live ∧
      ¬ FilesKept (run step (boot true) (sharedRun (.fork true))) := by
  have hslot : (run step (boot true) (sharedRun (.fork true))).tasks.slot (1, 3) = 4 := by
    decide +kernel
  have hfreed : 4 ∉ (run step (boot true) (sharedRun (.fork true))).files.live := by
    decide +kernel
  refine ⟨hslot, hfreed, fun h => hfreed ?_⟩
  have hheld := h.held (1, 3)
  exact hheld (by decide)

end Aevros.Vfs
