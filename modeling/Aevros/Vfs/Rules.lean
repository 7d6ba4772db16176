import Aevros.Vfs.Tree

/-! # Invariants of the calls

Where the dentries form a tree, each call is made of a few changes of the state. An invariant that
survives those changes survives every call.
-/

namespace Aevros.Vfs

open Option Tasks Function Finset Cells

namespace State

/-- The tree, with the working directories in it. -/
structure Rooted (s : State) : Prop extends Tree s where
  cwd_mem : ∀ t task, s.tasks.get t = some task → task.cwd = 0 ∨ task.cwd ∈ s.dentries.live

/-- With the memory for a dentry there is the memory for what belongs to it. -/
def Supplied (s : State) (mem : Memory) (ram : Bool) : Prop :=
  s.dentries.fresh mem.dentry ≠ 0 → s.inodes.fresh mem.inode ≠ 0 ∧ ram = true ∧ mem.name = true

/-- What comes of the request for an entry with inode `i`. -/
inductive Made (s : State) (mem : Memory) (i : Inode) : State → Prop
  | same : Made s mem i s
  | lost : s.dentries.fresh mem.dentry = 0 → Made s mem i (s.leak 0 (s.inodes.fresh mem.inode))
  | linked {parent child inode : ℕ} {name : List Byte} : parent ∈ s.dentries.live →
    child ∉ s.dentries.live → child ≠ 0 → inode ∉ s.inodes.live → inode ≠ 0 →
    Made s mem i (s.link parent child inode (some name) (dentryHash name) i)

variable {s s' s₁ : State} {t parent : ℕ} {task : Task} {path name : List Byte} {flags : Word}
  {mem : Memory} {i : Inode} {r : ℤ}

theorem Made.files (h : Made s mem i s') : s'.files = s.files := by cases h <;> rfl

theorem Made.tasks (h : Made s mem i s') : s'.tasks = s.tasks := by cases h <;> rfl

theorem Made.live_subset (h : Made s mem i s') : s.dentries.live ⊆ s'.dentries.live := by
  cases h with
  | same => exact subset_rfl
  | lost _ => exact subset_rfl
  | linked => exact subset_insert ..

theorem Tree.made (h : Tree s) (hmade : Made s mem i s') : Tree s' := by
  cases hmade with
  | same => exact h
  | lost _ => exact h.congr rfl rfl
  | linked hparent hchild hzero _ _ => exact h.link hparent hchild hzero

theorem Rooted.made (h : Rooted s) (hmade : Made s mem i s') : Rooted s' where
  toTree := h.toTree.made hmade
  cwd_mem t task htask :=
    (h.cwd_mem t task (hmade.tasks ▸ htask)).imp id fun hmem => hmade.live_subset hmem

theorem Rooted.setFd {fd : Fin 32} {p : ℕ} (h : Rooted s) (hd : s'.dentries = s.dentries)
    (hr : s'.root = s.root) (htasks : s'.tasks = s.tasks.modify t fun task => task.setFd fd p) :
    Rooted s' where
  toTree := h.congr hd hr
  cwd_mem u task hget := by
    rw [htasks] at hget
    obtain ⟨task', htask, heq⟩ := get_setFd hget
    rw [hd, heq]
    exact h.cwd_mem u task' htask

theorem Rooted.setCwd {d : ℕ} (h : Rooted s) (hd : d ∈ s.dentries.live) :
    Rooted { s with tasks := s.tasks.modify t fun task => { task with cwd := d } } where
  toTree := h.congr rfl rfl
  cwd_mem u task hget := by
    rw [get_modify] at hget
    split_ifs at hget with hu
    · obtain ⟨task', -, rfl⟩ := map_eq_some_iff.mp hget
      exact .inr hd
    · exact h.cwd_mem u task hget

theorem Rooted.spawn {c : Copying} {cwd : ℕ} (h : Rooted s) (htask : s.tasks.get t = some task)
    (hcwd : cwd = 0 ∨ cwd = task.cwd) : Rooted (s.spawn c task cwd) where
  toTree := h.congr (dentries_spawn s c task cwd) (copied_copyFds s c task.fdTable).root
  cwd_mem u task' hget := by
    rw [tasks_spawn] at hget
    rw [dentries_spawn]
    by_cases hu : u = s.tasks.count
    · rw [hu, get_add_self] at hget
      cases hget
      rcases hcwd with rfl | rfl
      · exact .inl rfl
      · exact h.cwd_mem t task htask
    · rw [get_add_of_ne hu] at hget
      exact h.cwd_mem u task' hget

theorem Rooted.exit (h : Rooted s) (t : ℕ) : Rooted { s with tasks := s.tasks.remove t } where
  toTree := h.congr rfl rfl
  cwd_mem u task hget := by
    by_cases hu : u = t
    · rw [hu, get_remove_self] at hget
      cases hget
    · rw [get_remove_of_ne hu] at hget
      exact h.cwd_mem u task hget

section Remove

variable {target : ℕ} (hunhash : s.unhash (s.dentries.get target).parent target
    (dentryHash name) = some s₁)
  (heq : s' = { s₁.releaseInode (s.dentries.get target).inode with
    dentries := (s₁.releaseInode (s.dentries.get target).inode).dentries.free target })

include hunhash heq

theorem unlink_frame : s'.dentries.live = s.dentries.live.erase target ∧ s'.files = s.files ∧
    s'.tasks = s.tasks := by
  obtain ⟨hfiles, -, htasks, -, hlive⟩ := unhash_frame hunhash
  obtain ⟨hfiles', htasks', hdentries, -⟩ :=
    releaseInode_frame (s := s₁) (s.dentries.get target).inode
  subst heq
  refine ⟨?_, hfiles'.trans hfiles, htasks'.trans htasks⟩
  rw [live_free, hdentries, hlive]

theorem Rooted.remove (h : Rooted s) (hlive : target ∈ s.dentries.live) (hroot : target ≠ s.root)
    (hempty : ∀ b, (s.dentries.get target).hashBucket b = 0)
    (hcwd : ∀ t task, s.tasks.get t = some task → task.cwd ≠ target)
    (hname : (s.dentries.get target).name = some name) : Rooted s' := by
  obtain ⟨hlive', -, htasks⟩ := unlink_frame hunhash heq
  obtain ⟨-, -, hdentries, hroot₁⟩ := releaseInode_frame (s := s₁) (s.dentries.get target).inode
  refine ⟨h.toTree.remove hlive hroot hempty hname hunhash ?_ ?_, fun t task htask => ?_⟩
  · rw [heq]
    exact congrArg (free · target) hdentries
  · rw [heq]
    exact hroot₁
  · rw [htasks] at htask
    rw [hlive', mem_erase]
    exact (h.cwd_mem t task htask).imp id fun hmem => ⟨hcwd t task htask, hmem⟩

end Remove

theorem ramfsCreateFiles_spec (hparent : parent ∈ s.dentries.live) (name : List Byte)
    (hmem : s.Supplied mem mem.ram) : ∃ d s', s.ramfsCreateFiles parent name mem = some (d, s') ∧
      Made s mem (newFile mem.junk) s' ∧ (d = 0 ∨ d ∈ s'.dentries.live) := by
  rw [ramfsCreateFiles]
  by_cases hchild : s.dentries.fresh mem.dentry = 0
  · rw [if_pos (.inr (.inl hchild)), hchild]
    exact ⟨0, _, rfl, .lost hchild, .inl rfl⟩
  obtain ⟨hinode, hram, hname⟩ := hmem hchild
  have hgot : ¬ (mem.ram = false ∨ s.dentries.fresh mem.dentry = 0 ∨
      s.inodes.fresh mem.inode = 0) := by simp [hram, hchild, hinode]
  rw [if_neg hgot]
  by_cases hdata : mem.data = false
  · rw [if_pos hdata]
    exact ⟨0, s, rfl, .same, .inl rfl⟩
  · rw [if_neg hdata, if_neg (by rw [hname]; decide)]
    exact ⟨_, _, rfl, .linked hparent (fresh_notMem hchild) hchild
      (fresh_notMem hinode) hinode, .inr (mem_insert_self ..)⟩

theorem ramfsMkdir_spec (hparent : parent ∈ s.dentries.live) (hzero : parent ≠ 0)
    (name : List Byte) (hmem : s.Supplied mem true) :
    Made s mem newDir (s.ramfsMkdir parent name mem).2 := by
  rw [ramfsMkdir, if_neg hzero]
  by_cases hchild : s.dentries.fresh mem.dentry = 0
  · rw [hchild]
    exact .lost hchild
  · obtain ⟨hinode, -, hname⟩ := hmem hchild
    rw [if_neg (not_or.mpr ⟨hchild, hinode⟩), hname]
    exact .linked hparent (fresh_notMem hchild) hchild (fresh_notMem hinode) hinode

section Spec

variable (h : Rooted s) (htask : s.tasks.get t = some task) (hpath : PathOk task.cwd path)

include h htask hpath

theorem Rooted.lookup : ∃ d, s.vfsLookup task.cwd path = some d ∧ (d = 0 ∨ d ∈ s.dentries.live) :=
  h.vfsLookup (h.cwd_mem t task htask) hpath.start hpath.segments

theorem Rooted.sysOpen (hmem : has flags creat = true → s.Supplied mem mem.ram) :
    ∃ r s' s₁, s.sysOpen t task path flags mem = some (r, s') ∧
      (s₁ = s ∨ has flags creat = true) ∧ Made s mem (newFile mem.junk) s₁ ∧
      (r = vfsErr ∧ s' = s₁ ∨ ∃ d ∈ s₁.dentries.live, ∃ fd : Fin 32, r = fd.val ∧
        task.fdTable fd = 0 ∧ s₁.files.fresh mem.file ≠ 0 ∧
        s' = s₁.install t fd (s₁.files.fresh mem.file) (s₁.newOpen d flags)) := by
  obtain ⟨d₀, hlookup, hd₀⟩ := h.lookup htask hpath
  have hmade : ∃ d s₁, s.findOrCreate task path flags mem d₀ = some (d, s₁) ∧
      (s₁ = s ∨ has flags creat = true) ∧ Made s mem (newFile mem.junk) s₁ ∧
      (d = 0 ∨ d ∈ s₁.dentries.live) := by
    rw [findOrCreate]
    by_cases hzero : d₀ = 0
    · rw [if_pos hzero, openCreate]
      by_cases hcreat : has flags creat = true
      · obtain ⟨parent, name, hparent, hlive⟩ :=
          h.resolveParentDir (h.cwd_mem t task htask) hpath
        simp only [hcreat, hparent, Bool.not_true, Bool.false_eq_true, if_false,
          bind_eq_bind, bind_some]
        split_ifs with hdir
        · exact ⟨0, s, rfl, .inl rfl, .same, .inl rfl⟩
        · obtain ⟨d, s₁, hcall, hmade, hd⟩ := ramfsCreateFiles_spec
            (hlive.resolve_left fun hz => hdir (.inl hz)) name (hmem hcreat)
          exact ⟨d, s₁, hcall, .inr trivial, hmade, hd⟩
      · rw [Bool.eq_false_of_not_eq_true hcreat]
        exact ⟨0, s, rfl, .inl rfl, .same, .inl rfl⟩
    · exact ⟨d₀, s, if_neg hzero, .inl rfl, .same, hd₀⟩
  obtain ⟨d, s₁, hcall, hsame, hmade, hd⟩ := hmade
  rw [State.sysOpen, hlookup]
  simp only [bind_eq_bind, bind_some, hcall]
  split_ifs with hzero
  · exact ⟨_, _, s₁, rfl, hsame, hmade, .inl ⟨rfl, rfl⟩⟩
  · refine ⟨_, _, s₁, rfl, hsame, hmade, ?_⟩
    rcases openDentry_cases (r := (s₁.openDentry t task d flags mem).1) rfl with
      ⟨hr, hs⟩ | ⟨fd, hr, hfd, hp, hs⟩
    · exact .inl ⟨hr, hs⟩
    · exact .inr ⟨d, hd.resolve_left hzero, fd, hr, hfd, hp, hs⟩

theorem Rooted.sysMkdir (hmem : s.Supplied mem true) :
    ∃ r s', s.sysMkdir task path mem = some (r, s') ∧ Made s mem newDir s' := by
  obtain ⟨parent, name, hparent, hlive⟩ := h.resolveParentDir (h.cwd_mem t task htask) hpath
  obtain ⟨d, hlookup, -⟩ := h.lookup htask hpath
  rw [State.sysMkdir, hparent]
  simp only [bind_eq_bind, bind_some, hlookup]
  split_ifs with hzero
  · exact ⟨_, _, rfl, .same⟩
  · exact ⟨_, _, rfl, .same⟩
  · exact ⟨_, _, rfl, .same⟩
  all_goals exact ⟨_, _, rfl, ramfsMkdir_spec (hlive.resolve_left hzero) hzero name hmem⟩

theorem Rooted.sysChdir : ∃ r s', s.sysChdir t task path = some (r, s') ∧
    (s' = s ∨ ∃ d ∈ s.dentries.live,
      s' = { s with tasks := s.tasks.modify t fun task => { task with cwd := d } }) := by
  obtain ⟨d, hlookup, hd⟩ := h.lookup htask hpath
  rw [State.sysChdir, hlookup]
  simp only [bind_eq_bind, bind_some]
  split_ifs with hzero hdir
  · exact ⟨_, _, rfl, .inl rfl⟩
  · exact ⟨_, _, rfl, .inl rfl⟩
  · exact ⟨_, _, rfl, .inr ⟨d, hd.resolve_left hzero, rfl⟩⟩

theorem Rooted.sysUnlink : ∃ r s', s.sysUnlink task path = some (r, s') ∧
    (s' = s ∨ ∃ target name s₁, s.vfsLookup task.cwd path = some target ∧
      target ∈ s.dentries.live ∧ target ≠ s.root ∧
      (s.dentries.get target).name = some name ∧
      s.unhash (s.dentries.get target).parent target (dentryHash name) = some s₁ ∧
      s' = { s₁.releaseInode (s.dentries.get target).inode with
        dentries := (s₁.releaseInode (s.dentries.get target).inode).dentries.free target }) := by
  obtain ⟨target, hlookup, hmem⟩ := h.lookup htask hpath
  rw [State.sysUnlink, hlookup]
  simp only [bind_eq_bind, bind_some]
  split_ifs with hzero hroot
  · exact ⟨_, _, rfl, .inl rfl⟩
  · exact ⟨_, _, rfl, .inl rfl⟩
  · exact ⟨_, _, rfl, .inl rfl⟩
  all_goals
    have hlive := hmem.resolve_left hzero
    obtain ⟨name, hname⟩ := h.named target hlive
    rw [hname, bind_some]
  · exact ⟨_, _, rfl, .inl rfl⟩
  · obtain ⟨s₁, hunhash, -⟩ := h.unhash hlive hroot hname
    rw [hunhash]
    exact ⟨_, _, rfl, .inr ⟨target, name, s₁, rfl, hlive, hroot, hname, hunhash, rfl⟩⟩

end Spec

/-- The changes that calls are made of keep `I`, as far as they are allowed. -/
structure Kept (makes : State → Memory → Prop) (closes removes : State → ℕ → Prop)
    (I : State → Prop) : Prop where
  rooted {s : State} : I s → Rooted s
  made {s s' : State} {mem : Memory} {i : Inode} : I s → makes s mem → i.refCount = 0 →
    Made s mem i s' → I s'
  install {s : State} {t p d : ℕ} {task : Task} {fd : Fin 32} (flags : Word) : I s →
    s.tasks.get t = some task → task.fdTable fd = 0 → p ≠ 0 → p ∉ s.files.live →
    d ∈ s.dentries.live → I (s.install t fd p (s.newOpen d flags)) ∧
      closes (s.install t fd p (s.newOpen d flags)) p
  close {s : State} {t p : ℕ} {task : Task} {fd : Fin 32} : I s → s.tasks.get t = some task →
    s.tasks.slot (t, fd) = p → p ≠ 0 → closes s p →
    I (s.closeSlot t fd p) ∧ ∀ q, closes s q → closes (s.closeSlot t fd p) q
  remove {s s₁ s' : State} {target : ℕ} {name : List Byte} : I s → target ∈ s.dentries.live →
    target ≠ s.root → removes s target → (s.dentries.get target).name = some name →
    s.unhash (s.dentries.get target).parent target (dentryHash name) = some s₁ →
    s' = { s₁.releaseInode (s.dentries.get target).inode with
      dentries := (s₁.releaseInode (s.dentries.get target).inode).dentries.free target } → I s'
  chdir {s : State} {t d : ℕ} : I s → d ∈ s.dentries.live →
    I { s with tasks := s.tasks.modify t fun task => { task with cwd := d } }
  spawn {s : State} {t cwd : ℕ} {task : Task} {c : Copying} : I s → s.tasks.get t = some task →
    (cwd = 0 ∨ cwd = task.cwd) → (∀ q, q ≠ 0 → c.counts q = true) → I (s.spawn c task cwd)
  exit {s : State} {t : ℕ} : I s → (∀ fd, s.tasks.slot (t, fd) = 0) →
    I { s with tasks := s.tasks.remove t }

end State

/-- Paths fit, entries are whole, and everything is made, closed and removed as allowed. -/
def Tidy (makes : State → Memory → Prop) (closes removes : State → ℕ → Prop) (s : State)
    (e : Event) : Prop :=
  ∀ task, s.tasks.get e.task = some task → match e.call with
    | .open path flags => State.PathOk task.cwd path ∧
      (has flags creat = true → s.Supplied e.mem e.mem.ram ∧ makes s e.mem)
    | .mkdir path => State.PathOk task.cwd path ∧ s.Supplied e.mem true ∧ makes s e.mem
    | .unlink path => State.PathOk task.cwd path ∧ ∀ target,
      s.vfsLookup task.cwd path = some target → target ≠ 0 → target ≠ s.root → removes s target
    | .chdir path | .exec path _ | .restore path _ _ _ => State.PathOk task.cwd path
    | .close fd => ∀ k, State.fdOf fd = some k → s.tasks.slot (e.task, k) ≠ 0 →
      closes s (s.tasks.slot (e.task, k))
    | .exit => ∀ k, s.tasks.slot (e.task, k) ≠ 0 → closes s (s.tasks.slot (e.task, k))
    | .fork _ | .create _ | .execUser _ => True

namespace State

variable {s s' : State} {t : ℕ} {task : Task} {path : List Byte} {flags : Word} {mem : Memory}
  {r : ℤ} {makes : State → Memory → Prop} {closes removes : State → ℕ → Prop} {I : State → Prop}

section Kept

variable (hk : Kept makes closes removes I) (h : I s) (htask : s.tasks.get t = some task)

include hk h htask

theorem Kept.sysOpen (hpath : PathOk task.cwd path) (flags : Word) (mem : Memory)
    (hmem : has flags creat = true → s.Supplied mem mem.ram ∧ makes s mem) :
    ∃ r s', s.sysOpen t task path flags mem = some (r, s') ∧ I s' ∧
      ∀ k, fdOf r = some k → closes s' (s'.tasks.slot (t, k)) := by
  obtain ⟨r, s', s₁, hcall, hsame, hmade, hrest⟩ :=
    (hk.rooted h).sysOpen htask hpath fun hc : has flags creat = true => (hmem hc).1
  have h₁ : I s₁ := by
    rcases hsame with rfl | hcreat
    · exact h
    · exact hk.made h (hmem hcreat).2 rfl hmade
  refine ⟨r, s', hcall, ?_⟩
  rcases hrest with ⟨rfl, rfl⟩ | ⟨d, hd, fd, rfl, hfd, hp, rfl⟩
  · exact ⟨h₁, nofun⟩
  · have htask₁ : s₁.tasks.get t = some task := hmade.tasks ▸ htask
    obtain ⟨hI, hcloses⟩ := hk.install flags h₁ htask₁ hfd hp (fresh_notMem hp) hd
    refine ⟨hI, fun k hk => ?_⟩
    cases (fdOf_val fd).symm.trans hk
    have hslot : (s₁.install t fd (s₁.files.fresh mem.file) (s₁.newOpen d flags)).tasks.slot
        (t, fd) = s₁.files.fresh mem.file := by
      change (s₁.tasks.modify t fun task => task.setFd fd _).slot (t, fd) = _
      rw [slot_setFd htask₁, update_self]
    rw [hslot]
    exact hcloses

theorem Kept.sysClose {fd : ℤ} (hfd : ∀ k, fdOf fd = some k → s.tasks.slot (t, k) ≠ 0 →
    closes s (s.tasks.slot (t, k))) : I (s.sysClose t fd).2 := by
  rw [State.sysClose]
  cases hof : fdOf fd with
  | none => exact h
  | some k =>
    dsimp only
    split_ifs with hzero
    · exact h
    · exact (hk.close h htask rfl hzero (hfd k hof hzero)).1

theorem Kept.viaFile (hpath : PathOk task.cwd path) (mem : Memory) :
    ∃ b s', s.viaFile t task path mem = some (b, s') ∧ I s' := by
  obtain ⟨r, s₂, hcall, h₂, hcloses⟩ :=
    hk.sysOpen h htask hpath readOnly mem nofun
  obtain ⟨task', htask'⟩ := get_sysOpen htask hcall
  rw [State.viaFile, hcall]
  simp only [bind_eq_bind, bind_some]
  split_ifs
  · exact ⟨_, _, rfl, h₂⟩
  · exact ⟨_, _, rfl, hk.sysClose h₂ htask' fun k hk _ => hcloses k hk⟩

theorem Kept.sysExit (hcloses : ∀ k, s.tasks.slot (t, k) ≠ 0 → closes s (s.tasks.slot (t, k))) :
    I (s.sysExit t) := by
  have hstep : ∀ s task fd, (I s ∧ ∀ k, s.tasks.slot (t, k) ≠ 0 → closes s (s.tasks.slot (t, k))) →
      s.tasks.get t = some task → I (closeFd t s fd) ∧ ∀ k, (closeFd t s fd).tasks.slot (t, k) ≠ 0 →
        closes (closeFd t s fd) ((closeFd t s fd).tasks.slot (t, k)) := by
    rintro s task fd ⟨hs, hcs⟩ htask
    rw [closeFd]
    split_ifs with hzero
    · exact ⟨hs, hcs⟩
    · obtain ⟨hI, hkeeps⟩ := hk.close hs htask rfl hzero (hcs fd hzero)
      refine ⟨hI, fun k hne => ?_⟩
      rw [slot_closeSlot htask] at hne ⊢
      split_ifs at hne ⊢ with hx
      · exact absurd rfl hne
      · exact hkeeps _ (hcs k hne)
  obtain ⟨s₁, ⟨h₁, -⟩, htasks, hslot, hexit⟩ := sysExit_cases hstep ⟨h, hcloses⟩ htask
  rw [hexit]
  refine hk.exit h₁ fun fd => ?_
  rw [← hslot, htasks, slot_remove, if_pos rfl]

theorem Kept.perform {call : Call} (htidy : Tidy makes closes removes s ⟨t, call, mem⟩) :
    ∃ s', s.perform t task mem call = some s' ∧ I s' := by
  have htidy := htidy task htask
  cases call with
  | «open» path flags =>
    obtain ⟨r, s', hcall, h', -⟩ := hk.sysOpen h htask htidy.1 flags mem htidy.2
    exact ⟨s', by rw [State.perform, hcall]; rfl, h'⟩
  | close fd => exact ⟨_, rfl, hk.sysClose h htask htidy⟩
  | mkdir path =>
    obtain ⟨r, s', hcall, hmade⟩ := (hk.rooted h).sysMkdir htask htidy.1 htidy.2.1
    exact ⟨s', by rw [State.perform, hcall]; rfl, hk.made h htidy.2.2 rfl hmade⟩
  | unlink path =>
    obtain ⟨r, s', hcall, hcases⟩ := (hk.rooted h).sysUnlink htask htidy.1
    refine ⟨s', by rw [State.perform, hcall]; rfl, ?_⟩
    rcases hcases with rfl | ⟨target, name, s₁, hlookup, hlive, hroot, hname, hunhash, heq⟩
    · exact h
    · exact hk.remove h hlive hroot
        (htidy.2 target hlookup ((hk.rooted h).ne_zero hlive) hroot) hname hunhash heq
  | chdir path =>
    obtain ⟨r, s', hcall, hcases⟩ := (hk.rooted h).sysChdir htask htidy
    refine ⟨s', by rw [State.perform, hcall]; rfl, ?_⟩
    rcases hcases with rfl | ⟨d, hd, rfl⟩
    · exact h
    · exact hk.chdir h hd
  | fork ok =>
    refine ⟨_, rfl, ?_⟩
    rw [doFork]
    split_ifs
    · exact hk.spawn h htask (.inr rfl) fun _ _ => rfl
    · exact h
  | create ok =>
    refine ⟨_, rfl, ?_⟩
    rw [createProcess]
    split_ifs
    · exact hk.spawn h htask (.inl rfl) fun q hq => decide_eq_true hq
    · exact h
  | execUser ok =>
    refine ⟨_, rfl, ?_⟩
    rw [execUser]
    split_ifs
    · exact hk.spawn h htask (.inr rfl) fun _ _ => rfl
    · exact h
  | exec path ok =>
    obtain ⟨b, s₁, hfile, h₁⟩ := hk.viaFile h htask htidy mem
    have htask₁ : s₁.tasks.get t = some task := (tasks_viaFile htask hfile).symm ▸ htask
    rw [State.perform, sysExec, hfile]
    refine ⟨_, rfl, ?_⟩
    rw [execUser]
    split_ifs
    · exact hk.spawn h₁ htask₁ (.inr rfl) fun _ _ => rfl
    · exact h₁
    · exact h₁
  | restore path present offset ok =>
    obtain ⟨b, s₁, hfile, h₁⟩ := hk.viaFile h htask htidy mem
    have htask₁ : s₁.tasks.get t = some task := (tasks_viaFile htask hfile).symm ▸ htask
    rw [State.perform, aevrospointRestore, hfile]
    refine ⟨_, rfl, ?_⟩
    split_ifs
    · exact hk.spawn h₁ htask₁ (.inl rfl) fun _ _ => rfl
    · exact h₁
  | exit => exact ⟨_, rfl, hk.sysExit h htask htidy⟩

end Kept

theorem Kept.step (hk : Kept makes closes removes I) (h : I s) {e : Event}
    (htidy : Tidy makes closes removes s e) : I (step s e) := by
  rw [Vfs.step]
  cases htask : s.tasks.get e.task with
  | none => exact h
  | some task =>
    obtain ⟨s', hcall, h'⟩ := hk.perform h htask htidy
    simp only [hcall]
    exact h'

theorem live_boot {tty : Bool} {d : ℕ} : d ∈ (boot tty).dentries.live ↔ d = 1 ∨ d = 2 := by
  change d ∈ ({1, 2} : Finset ℕ) ↔ _
  rw [mem_insert, mem_singleton]

theorem isEntry_boot {tty : Bool} {d c : ℕ} {b : Fin 32} :
    (boot tty).IsEntry d b c ↔ d = 1 ∧ b = dentryHash [0x64, 0x65, 0x76] ∧ c = 2 := by
  rw [IsEntry, live_boot]
  constructor
  · rintro ⟨rfl | rfl, hroot, rfl, name, hname, rfl⟩
    · exact absurd rfl hroot
    · cases hname
      exact ⟨rfl, rfl, rfl⟩
  · rintro ⟨rfl, rfl, rfl⟩
    exact ⟨.inr rfl, Nat.succ_ne_self 1, rfl, _, rfl, rfl⟩

theorem tree_boot (tty : Bool) : Tree (boot tty) where
  null_notMem h := by simp [live_boot] at h
  root_mem := live_boot.mpr (.inl rfl)
  root_parent := rfl
  parent_mem := forall_boot (live_boot.mpr (.inl rfl)) (live_boot.mpr (.inl rfl))
  named := forall_boot ⟨_, rfl⟩ ⟨_, rfl⟩
  unmounted := forall_boot rfl rfl
  buckets d hd b := by
    have hroot : ((boot tty).dentries.get 1).hashBucket =
      update (fun _ => 0) (dentryHash [0x64, 0x65, 0x76]) 2 := rfl
    simp only [isEntry_boot, Bucket]
    by_cases hb : d = 1 ∧ b = dentryHash [0x64, 0x65, 0x76]
    · obtain ⟨rfl, rfl⟩ := hb
      exact ⟨[2], ⟨rfl, Nat.succ_ne_zero 1, rfl⟩, fun c => by simp⟩
    · refine ⟨[], ?_, fun c => iff_of_false List.not_mem_nil fun h => hb ⟨h.1, h.2.1⟩⟩
      rcases live_boot.mp hd with rfl | rfl
      · rw [hroot, update_of_ne fun heq => hb ⟨rfl, heq⟩]
        rfl
      · rfl
  ranked := ⟨id, forall_boot (fun hroot => absurd rfl hroot) fun _ => Nat.lt_succ_self 1⟩

theorem rooted_boot (tty : Bool) : Rooted (boot tty) where
  toTree := tree_boot tty
  cwd_mem t task htask := by
    change (if t = 0 then some _ else none) = some task at htask
    split_ifs at htask
    · cases htask
      exact .inr (live_boot.mpr (.inl rfl))

end State

end Aevros.Vfs
