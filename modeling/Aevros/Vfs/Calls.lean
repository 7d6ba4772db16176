import Aevros.Vfs.Paths

/-! # System calls on files and tasks

The calls that make, remove and open files, and those by which a task gets its descriptors
from another one.
-/

namespace Aevros.Vfs

open Option Prod

def vfsErr : ℤ := -1

def Inode.addRef (inode : Inode) : Inode := { inode with refCount := inode.refCount + 1 }

def Inode.dropRef (inode : Inode) : Inode := { inode with refCount := inode.refCount - 1 }

def File.addRef (file : File) : File := { file with refCount := file.refCount + 1 }

def File.dropRef (file : File) : File := { file with refCount := file.refCount - 1 }

def newDentry (name : Option (List Byte)) (inode parent : ℕ) (hashNext : ℕ) : Dentry where
  name := name
  inode := inode
  parent := parent
  children := 0
  mount := 0
  hashBucket := fun _ => 0
  hashNext := hashNext

def Dentry.setBucket (d : Dentry) (b : Fin 32) (p : ℕ) : Dentry :=
  { d with hashBucket := Function.update d.hashBucket b p }

def Dentry.setNext (d : Dentry) (p : ℕ) : Dentry := { d with hashNext := p }

namespace State

variable (s : State)

/-- The blocks that were taken before another one was refused; they are not given back. -/
def leak (child inode : ℕ) : State :=
  { s with
    dentries := if child = 0 then s.dentries else s.dentries.take child
    inodes := if inode = 0 then s.inodes else s.inodes.take inode }

def link (parent child inode : ℕ) (name : Option (List Byte)) (b : Fin 32) (i : Inode) : State :=
  let head := (s.dentries.get parent).hashBucket b
  { s with
    inodes := s.inodes.put inode i
    dentries := (s.dentries.put child (newDentry name inode parent head)).modify parent
      fun d => d.setBucket b child }

def newFile (junk : ℕ → Byte) : Inode where
  size := 0
  flags := vfsFile
  refCount := 0
  ops := some .ramfs
  fsPrivate := some { data := junk, capacity := 4096 }

def newDir : Inode where
  size := 0
  flags := vfsDir
  refCount := 0
  ops := none
  fsPrivate := none

def ramfsCreateFiles (parent : ℕ) (name : List Byte) (mem : Memory) : Option (ℕ × State) :=
  let child := s.dentries.fresh mem.dentry
  let inode := s.inodes.fresh mem.inode
  if mem.ram = false ∨ child = 0 ∨ inode = 0 then some (0, s.leak child inode)
  else if mem.data = false then some (0, s)
  -- the name is hashed after `strdup`, which may have failed
  else if mem.name = false then none
  else some (child, s.link parent child inode (some name) (dentryHash name) (newFile mem.junk))

def ramfsMkdir (parent : ℕ) (name : List Byte) (mem : Memory) : ℕ × State :=
  if parent = 0 then (0, s)
  else
    let child := s.dentries.fresh mem.dentry
    let inode := s.inodes.fresh mem.inode
    if child = 0 ∨ inode = 0 then (0, s.leak child inode)
    else (child, s.link parent child inode (if mem.name then some name else none)
      (dentryHash name) newDir)

section

variable (task : Task) (path : List Byte)

def sysMkdir (mem : Memory) : Option (ℤ × State) := do
  let (parent, name) ← s.resolveParentDir task.cwd path
  if parent = 0 then return (vfsErr, s)
  if !s.isDir parent then return (vfsErr, s)
  let exist ← s.vfsLookup task.cwd path
  if exist ≠ 0 then return (vfsErr, s)
  let (dir, s) := s.ramfsMkdir parent name mem
  return (if dir = 0 then vfsErr else 0, s)

def firstFree : Option (Fin 32) :=
  (List.finRange 32).find? fun fd => task.fdTable fd = 0

/-- A new file gets a descriptor, and its inode is counted. -/
def install (t : ℕ) (fd : Fin 32) (p : ℕ) (file : File) : State :=
  { s with
    files := s.files.put p file
    inodes := s.inodes.modify file.inode Inode.addRef
    tasks := s.tasks.modify t fun task => task.setFd fd p }

def newOpen (dentry : ℕ) (flags : Word) : File where
  inode := (s.dentries.get dentry).inode
  dentry := s.vfsFollowMount dentry
  refCount := 1
  flags := flags
  offset := 0

def openDentry (t : ℕ) (task : Task) (dentry : ℕ) (flags : Word) (mem : Memory) : ℤ × State :=
  let p := s.files.fresh mem.file
  if p = 0 then (vfsErr, s)
  else match firstFree task with
    | none => (vfsErr, s)
    | some fd => (fd.val, s.install t fd p (s.newOpen dentry flags))

def openCreate (flags : Word) (mem : Memory) : Option (ℕ × State) := do
  if !has flags creat then return (0, s)
  let (parent, name) ← s.resolveParentDir task.cwd path
  if parent = 0 ∨ !s.isDir parent then return (0, s)
  s.ramfsCreateFiles parent name mem

def findOrCreate (flags : Word) (mem : Memory) (dentry : ℕ) : Option (ℕ × State) :=
  if dentry = 0 then s.openCreate task path flags mem else some (dentry, s)

def sysOpen (t : ℕ) (task : Task) (path : List Byte) (flags : Word) (mem : Memory) :
    Option (ℤ × State) := do
  let dentry ← s.vfsLookup task.cwd path
  let (dentry, s) ← s.findOrCreate task path flags mem dentry
  if dentry = 0 then return (vfsErr, s)
  return s.openDentry t task dentry flags mem

def closeSlot (t : ℕ) (fd : Fin 32) (p : ℕ) : State :=
  let file := s.files.get p
  { s with
    inodes := if file.inode = 0 then s.inodes else s.inodes.modify file.inode Inode.dropRef
    files := if 1 < file.refCount then s.files.modify p File.dropRef else s.files.free p
    tasks := s.tasks.modify t fun task => task.setFd fd 0 }

def fdOf (fd : ℤ) : Option (Fin 32) :=
  if h : 0 ≤ fd ∧ fd < 32 then some ⟨fd.toNat, by omega⟩ else none

def sysClose (t : ℕ) (fd : ℤ) : ℤ × State :=
  match fdOf fd with
  | none => (vfsErr, s)
  | some fd =>
    if s.tasks.slot (t, fd) = 0 then (vfsErr, s)
    else (0, s.closeSlot t fd (s.tasks.slot (t, fd)))

def unhash (parent target : ℕ) (b : Fin 32) : Option State :=
  let head := (s.dentries.get parent).hashBucket b
  match Chain.search 0 s.next target s.fuel none head with
  | none => none
  | some none => some s
  | some (some none) =>
    some { s with dentries := s.dentries.modify parent fun d => d.setBucket b (s.next target) }
  | some (some (some prev)) =>
    some { s with dentries := s.dentries.modify prev fun d => d.setNext (s.next target) }

/-- The inode loses a reference, and is freed with its buffer if that was the last one. -/
def releaseInode (p : ℕ) : State :=
  let s := { s with inodes := s.inodes.modify p Inode.dropRef }
  if (s.inodes.get p).refCount = 0 then { s with inodes := s.inodes.free p } else s

def sysUnlink : Option (ℤ × State) := do
  let target ← s.vfsLookup task.cwd path
  if target = 0 then return (vfsErr, s)
  if target = s.root then return (vfsErr, s)
  let d := s.dentries.get target
  if d.parent = 0 ∨ d.inode = 0 then return (vfsErr, s)
  let name ← d.name
  if has (s.inodes.get d.inode).flags vfsDir ∧ d.children ≠ 0 then return (vfsErr, s)
  let s ← s.unhash d.parent target (dentryHash name)
  let s := s.releaseInode d.inode
  return (0, { s with dentries := s.dentries.free target })

end

def sysChdir (t : ℕ) (task : Task) (path : List Byte) : Option (ℤ × State) := do
  let target ← s.vfsLookup task.cwd path
  if target = 0 then return (vfsErr, s)
  if !s.isDir target then return (vfsErr, s)
  return (0, { s with tasks := s.tasks.modify t fun task => { task with cwd := target } })

section Cases

variable {s} {s' : State} {t parent d : ℕ} {task : Task} {path name : List Byte} {flags : Word}
  {mem : Memory} {r : ℤ}

theorem ramfsCreateFiles_cases (h : s.ramfsCreateFiles parent name mem = some (d, s')) :
    (d = 0 ∧ (s' = s ∨ s' = s.leak (s.dentries.fresh mem.dentry) (s.inodes.fresh mem.inode) ∧
      (mem.ram = false ∨ s.dentries.fresh mem.dentry = 0 ∨ s.inodes.fresh mem.inode = 0))) ∨
    (d = s.dentries.fresh mem.dentry ∧ d ≠ 0 ∧ s.inodes.fresh mem.inode ≠ 0 ∧
      s' = s.link parent d (s.inodes.fresh mem.inode) (some name) (dentryHash name)
        (newFile mem.junk)) := by
  rw [ramfsCreateFiles] at h
  split_ifs at h with hfail hdata hname
  · cases h
    exact .inl ⟨rfl, .inr ⟨rfl, hfail⟩⟩
  · cases h
    exact .inl ⟨rfl, .inl rfl⟩
  · cases h
    obtain ⟨-, hd, hi⟩ := not_or.mp hfail |>.imp id not_or.mp
    exact .inr ⟨rfl, hd, hi, rfl⟩

theorem openCreate_cases (h : s.openCreate task path flags mem = some (d, s')) :
    (d = 0 ∧ s' = s) ∨ ∃ parent name, has flags creat = true ∧
      s.resolveParentDir task.cwd path = some (parent, name) ∧ parent ≠ 0 ∧
      s.isDir parent = true ∧ s.ramfsCreateFiles parent name mem = some (d, s') := by
  rw [openCreate] at h
  by_cases hc : has flags creat = true
  · rw [hc] at h
    simp only [bind_eq_bind] at h
    obtain ⟨⟨parent, name⟩, hparent, h⟩ := bind_eq_some_iff.mp h
    split_ifs at h with hp
    · cases h
      exact .inl ⟨rfl, rfl⟩
    · exact .inr ⟨parent, name, hc, hparent, fun hzero => hp (.inl hzero),
        by simpa using fun hdir => hp (.inr hdir), h⟩
  · rw [Bool.eq_false_of_not_eq_true hc] at h
    cases h
    exact .inl ⟨rfl, rfl⟩

theorem openDentry_cases (h : s.openDentry t task d flags mem = (r, s')) :
    (r = vfsErr ∧ s' = s) ∨ ∃ fd : Fin 32, r = fd.val ∧ task.fdTable fd = 0 ∧
      s.files.fresh mem.file ≠ 0 ∧
      s' = s.install t fd (s.files.fresh mem.file) (s.newOpen d flags) := by
  rw [openDentry] at h
  split_ifs at h with hp
  · cases h
    exact .inl ⟨rfl, rfl⟩
  · cases hfree : firstFree task with
    | none =>
      rw [hfree] at h
      cases h
      exact .inl ⟨rfl, rfl⟩
    | some fd =>
      rw [hfree] at h
      cases h
      exact .inr ⟨fd, rfl, by simpa using List.find?_some hfree, hp, rfl⟩

theorem sysOpen_cases (h : s.sysOpen t task path flags mem = some (r, s')) :
    ∃ d₀ d s₁, s.vfsLookup task.cwd path = some d₀ ∧
      s.findOrCreate task path flags mem d₀ = some (d, s₁) ∧
      (d = 0 ∧ r = vfsErr ∧ s' = s₁ ∨ d ≠ 0 ∧ s₁.openDentry t task d flags mem = (r, s')) := by
  rw [sysOpen] at h
  simp only [bind_eq_bind] at h
  obtain ⟨d₀, hlookup, h⟩ := bind_eq_some_iff.mp h
  obtain ⟨⟨d, s₁⟩, hmade, h⟩ := bind_eq_some_iff.mp h
  refine ⟨d₀, d, s₁, hlookup, hmade, ?_⟩
  split_ifs at h with hd
  · cases h
    exact .inl ⟨hd, rfl, rfl⟩
  · exact .inr ⟨hd, some.inj h⟩

theorem sysMkdir_cases (h : s.sysMkdir task path mem = some (r, s')) :
    s' = s ∨ ∃ parent name, s.resolveParentDir task.cwd path = some (parent, name) ∧ parent ≠ 0 ∧
      s' = (s.ramfsMkdir parent name mem).2 := by
  rw [sysMkdir] at h
  simp only [bind_eq_bind] at h
  obtain ⟨⟨parent, name⟩, hparent, h⟩ := bind_eq_some_iff.mp h
  split_ifs at h with hp
  · exact .inl (Prod.mk.inj (Option.some.inj h)).2.symm
  · exact .inl (Prod.mk.inj (Option.some.inj h)).2.symm
  all_goals
    obtain ⟨exist, -, h⟩ := bind_eq_some_iff.mp h
    split_ifs at h
    · exact .inl (Prod.mk.inj (Option.some.inj h)).2.symm
    · exact .inr ⟨parent, name, hparent, hp, (Prod.mk.inj (Option.some.inj h)).2.symm⟩

theorem ramfsMkdir_cases (hparent : parent ≠ 0) : ((s.ramfsMkdir parent name mem).2 =
        s.leak (s.dentries.fresh mem.dentry) (s.inodes.fresh mem.inode) ∧
      (s.dentries.fresh mem.dentry = 0 ∨ s.inodes.fresh mem.inode = 0)) ∨
    (s.dentries.fresh mem.dentry ≠ 0 ∧ s.inodes.fresh mem.inode ≠ 0 ∧
      (s.ramfsMkdir parent name mem).2 = s.link parent (s.dentries.fresh mem.dentry)
        (s.inodes.fresh mem.inode) (if mem.name then some name else none) (dentryHash name)
        newDir) := by
  rw [ramfsMkdir, if_neg hparent]
  by_cases hfail : s.dentries.fresh mem.dentry = 0 ∨ s.inodes.fresh mem.inode = 0
  · exact .inl ⟨congrArg snd (if_pos hfail), hfail⟩
  · exact .inr ⟨fun h => hfail (.inl h), fun h => hfail (.inr h), congrArg snd (if_neg hfail)⟩

theorem sysUnlink_cases (h : s.sysUnlink task path = some (r, s')) :
    s' = s ∨ ∃ target name s₁, s.vfsLookup task.cwd path = some target ∧ target ≠ 0 ∧
      target ≠ s.root ∧ (s.dentries.get target).inode ≠ 0 ∧
      (s.dentries.get target).name = some name ∧
      s.unhash (s.dentries.get target).parent target (dentryHash name) = some s₁ ∧
      s' = { s₁.releaseInode (s.dentries.get target).inode with
        dentries := (s₁.releaseInode (s.dentries.get target).inode).dentries.free target } := by
  obtain ⟨target, hlookup, h⟩ := bind_eq_some_iff.mp h
  dsimp only at h
  split_ifs at h with hzero hroot hnull
  · exact .inl (Prod.mk.inj (Option.some.inj h)).2.symm
  · exact .inl (Prod.mk.inj (Option.some.inj h)).2.symm
  · exact .inl (Prod.mk.inj (Option.some.inj h)).2.symm
  all_goals obtain ⟨name, hname, h⟩ := bind_eq_some_iff.mp h
  · exact .inl (Prod.mk.inj (Option.some.inj h)).2.symm
  · obtain ⟨s₁, hunhash, h⟩ := bind_eq_some_iff.mp h
    exact .inr ⟨target, name, s₁, hlookup, hzero, hroot, fun hi => hnull (.inr hi), hname, hunhash,
      (Prod.mk.inj (Option.some.inj h)).2.symm⟩

theorem sysChdir_cases (h : s.sysChdir t task path = some (r, s')) :
    s' = s ∨ ∃ target, s.vfsLookup task.cwd path = some target ∧ target ≠ 0 ∧
      s' = { s with tasks := s.tasks.modify t fun task => { task with cwd := target } } := by
  obtain ⟨target, hlookup, h⟩ := bind_eq_some_iff.mp h
  split_ifs at h with hzero hdir
  · exact .inl (Prod.mk.inj (Option.some.inj h)).2.symm
  · exact .inl (Prod.mk.inj (Option.some.inj h)).2.symm
  · exact .inr ⟨target, hlookup, hzero, (Prod.mk.inj (Option.some.inj h)).2.symm⟩

theorem unhash_frame {target : ℕ} {b : Fin 32} (h : s.unhash parent target b = some s') :
    s'.files = s.files ∧ s'.inodes = s.inodes ∧ s'.tasks = s.tasks ∧ s'.root = s.root ∧
      s'.dentries.live = s.dentries.live := by
  rw [unhash] at h
  split at h
  · cases h
  · cases h
    exact ⟨rfl, rfl, rfl, rfl, rfl⟩
  · cases h
    exact ⟨rfl, rfl, rfl, rfl, rfl⟩
  · cases h
    exact ⟨rfl, rfl, rfl, rfl, rfl⟩

theorem releaseInode_frame (p : ℕ) : (s.releaseInode p).files = s.files ∧
    (s.releaseInode p).tasks = s.tasks ∧ (s.releaseInode p).dentries = s.dentries ∧
    (s.releaseInode p).root = s.root := by
  rw [releaseInode]
  split_ifs
  · exact ⟨rfl, rfl, rfl, rfl⟩
  · exact ⟨rfl, rfl, rfl, rfl⟩

end Cases

end State

end Aevros.Vfs
