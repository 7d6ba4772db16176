import Aevros.Library.Runs
import Aevros.Vfs.Calls

/-! # Tasks and their descriptors

A new task gets descriptors of the one that makes it. `create_process`, `exec` and `sys_exec` count
the files as well as the inodes, the others only the inodes.
-/

namespace Aevros.Vfs

/-- How a loop copies descriptors: which it takes, and what it does to files and inodes. -/
structure Copying where
  takes : Fin 32 → File → Bool
  mark : Fin 32 → File → File
  counts : ℕ → Bool
  fileRefs : ℕ
  refCount_mark : ∀ i file, (mark i file).refCount = file.refCount + fileRefs
  takes_mark : ∀ i j file, takes i (mark j file) = takes i file
  inode_mark : ∀ i file, (mark i file).inode = file.inode
  dentry_mark : ∀ i file, (mark i file).dentry = file.dentry

def taskInheritFds : Copying where
  takes _ _ := true
  mark _ := File.addRef
  counts inode := inode ≠ 0
  fileRefs := 1
  refCount_mark _ _ := rfl
  takes_mark _ _ _ := rfl
  inode_mark _ _ := rfl
  dentry_mark _ _ := rfl

def forkFds : Copying where
  takes _ file := !has file.flags oCloexec
  mark _ file := file
  counts _ := true
  fileRefs := 0
  refCount_mark _ _ := rfl
  takes_mark _ _ _ := rfl
  inode_mark _ _ := rfl
  dentry_mark _ _ := rfl

def execFds : Copying where
  takes _ file := !has file.flags oCloexec
  mark _ := File.addRef
  counts _ := true
  fileRefs := 1
  refCount_mark _ _ := rfl
  takes_mark _ _ _ := rfl
  inode_mark _ _ := rfl
  dentry_mark _ _ := rfl

def restoreFds (present : Fin 32 → Bool) (offset : Fin 32 → Word) : Copying where
  takes i _ := present i
  mark i file := { file with offset := offset i }
  counts _ := true
  fileRefs := 0
  refCount_mark _ _ := rfl
  takes_mark _ _ _ := rfl
  inode_mark _ _ := rfl
  dentry_mark _ _ := rfl

namespace State

def copyFd (c : Copying) (fds : Fin 32 → ℕ) (st : State × (Fin 32 → ℕ)) (i : Fin 32) :
    State × (Fin 32 → ℕ) :=
  let (s, table) := st
  if fds i = 0 then (s, table)
  else if !c.takes i (s.files.get (fds i)) then (s, table)
  else
    let inode := (s.files.get (fds i)).inode
    ({ s with
        files := s.files.modify (fds i) (c.mark i)
        inodes := if c.counts inode then s.inodes.modify inode Inode.addRef else s.inodes },
      Function.update table i (fds i))

variable (s : State)

def copyFds (c : Copying) (fds : Fin 32 → ℕ) : State × (Fin 32 → ℕ) :=
  (List.finRange 32).foldl (copyFd c fds) (s, fun _ => 0)

def spawn (c : Copying) (task : Task) (cwd : ℕ) : State :=
  let (s, table) := s.copyFds c task.fdTable
  { s with tasks := s.tasks.add { fdTable := table, cwd := cwd } }

/-- `do_fork`, with whether there is memory for the child. -/
def doFork (task : Task) (ok : Bool) : State := if ok then s.spawn forkFds task task.cwd else s

/-- `create_process`, which sets no working directory. -/
def createProcess (task : Task) (ok : Bool) : State :=
  if ok then s.spawn taskInheritFds task 0 else s

/-- `exec_user`, with whether the program was loaded. -/
def execUser (task : Task) (ok : Bool) : State := if ok then s.spawn execFds task task.cwd else s

variable (t : ℕ)

/-- A file is opened, read and closed again before a task is made. -/
def viaFile (task : Task) (path : List Byte) (mem : Memory) : Option (Bool × State) := do
  let (fd, s) ← s.sysOpen t task path readOnly mem
  if fd < 0 then return (false, s)
  return (true, (s.sysClose t fd).2)

/-- `sys_exec`, with whether the program was read and loaded. -/
def sysExec (task : Task) (path : List Byte) (ok : Bool) (mem : Memory) : Option State := do
  let (opened, s) ← s.viaFile t task path mem
  return if opened then s.execUser task ok else s

/-- `aevrospoint_restore`, with whether the checkpoint was read and a task made for it. -/
def aevrospointRestore (task : Task) (path : List Byte) (present : Fin 32 → Bool)
    (offset : Fin 32 → Word) (ok : Bool) (mem : Memory) : Option State := do
  let (opened, s) ← s.viaFile t task path mem
  return if opened ∧ ok then s.spawn (restoreFds present offset) task 0 else s

def closeFd (s : State) (fd : Fin 32) : State :=
  if s.tasks.slot (t, fd) = 0 then s else s.closeSlot t fd (s.tasks.slot (t, fd))

/-- `sys_exit`: the descriptors are closed, and the task is none any more. -/
def sysExit : State :=
  let s := (List.finRange 32).foldl (closeFd t) s
  { s with tasks := s.tasks.remove t }

end State

inductive Call
  | open (path : List Byte) (flags : Word)
  | close (fd : ℤ)
  | mkdir (path : List Byte)
  | unlink (path : List Byte)
  | chdir (path : List Byte)
  | fork (ok : Bool)
  | create (ok : Bool)
  | execUser (ok : Bool)
  | exec (path : List Byte) (ok : Bool)
  | restore (path : List Byte) (present : Fin 32 → Bool) (offset : Fin 32 → Word) (ok : Bool)
  | exit

structure Event where
  task : ℕ
  call : Call
  mem : Memory

/-- The state after a call; `none` if the call goes astray. -/
def State.perform (s : State) (t : ℕ) (task : Task) (mem : Memory) : Call → Option State
  | .open path flags => (s.sysOpen t task path flags mem).map Prod.snd
  | .close fd => some (s.sysClose t fd).2
  | .mkdir path => (s.sysMkdir task path mem).map Prod.snd
  | .unlink path => (s.sysUnlink task path).map Prod.snd
  | .chdir path => (s.sysChdir t task path).map Prod.snd
  | .fork ok => some (s.doFork task ok)
  | .create ok => some (s.createProcess task ok)
  | .execUser ok => some (s.execUser task ok)
  | .exec path ok => s.sysExec t task path ok mem
  | .restore path present offset ok => s.aevrospointRestore t task path present offset ok mem
  | .exit => some (s.sysExit t)

def step (s : State) (e : Event) : State :=
  match s.tasks.get e.task with
  | none => s
  | some task => (s.perform e.task task e.mem e.call).getD s

def bootDentries : Cells Dentry where
  get p :=
    let dev : List Byte := [0x64, 0x65, 0x76]
    if p = 1 then { newDentry (some [slash]) 1 1 0 with
      hashBucket := Function.update (fun _ => 0) (dentryHash dev) 2 }
    else newDentry (some dev) 2 1 0
  live := {1, 2}

def bootInodes : Cells Inode where
  get p :=
    if p = 1 then { State.newDir with ops := some .ramfs }
    else if p = 2 then State.newDir
    else { State.newDir with flags := vfsDevice, ops := some .tty }
  live := {1, 2, 3}

def bootFiles (tty : Bool) : Cells File where
  get p := { inode := 3, dentry := 0, refCount := 1, offset := 0,
             flags := if p = 1 then readOnly else writeOnly }
  live := if tty then {1, 2, 3} else ∅

def bootTasks (tty : Bool) : Tasks where
  get t :=
    if t = 0 then some { fdTable := fun fd => if tty ∧ fd.val < 3 then fd.val + 1 else 0, cwd := 1 }
    else none
  count := 1
  bound t ht := if_neg (by omega)

/-- The state after `init_tasking`, with whether the terminal could be registered. -/
def boot (tty : Bool) : State where
  dentries := bootDentries
  inodes := bootInodes
  files := bootFiles tty
  root := 1
  tasks := bootTasks tty

end Aevros.Vfs
