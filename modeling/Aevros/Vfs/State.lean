import Aevros.Library.Cells
import Aevros.Library.Holders
import Aevros.Library.Chain
import Aevros.Wire.Segment

/-! # Directory entries, inodes and open files

A dentry holds 32 buckets of children, linked by `hash_next`. The descriptors of a task point to
files, which point to an inode and to a dentry. Address 0 is `NULL`.
-/

namespace Aevros.Vfs

open Function

def vfsFile : Word := 1

def vfsDir : Word := 2

def vfsDevice : Word := 4

def readOnly : Word := 1

def writeOnly : Word := 2

def readWrite : Word := 3

def creat : Word := 4

def oCloexec : Word := 8

def has (flags bits : Word) : Bool := flags &&& bits ≠ 0

structure Dentry where
  name : Option (List Byte)
  inode : ℕ
  parent : ℕ
  children : ℕ
  mount : ℕ
  hashBucket : Fin 32 → ℕ
  hashNext : ℕ

/-- Which functions read and write an inode. -/
inductive Ops
  | ramfs
  | tty
  deriving DecidableEq

/-- `ramfs_inode_t`: a buffer and how many bytes it has. -/
structure RamInode where
  data : ℕ → Byte
  capacity : Word

structure Inode where
  size : Word
  flags : Word
  refCount : ℕ
  ops : Option Ops
  fsPrivate : Option RamInode

structure File where
  inode : ℕ
  dentry : ℕ
  refCount : ℕ
  flags : Word
  offset : Word

structure Task where
  fdTable : Fin 32 → ℕ
  cwd : ℕ

def Task.setFd (task : Task) (fd : Fin 32) (p : ℕ) : Task :=
  { task with fdTable := update task.fdTable fd p }

/-- The tasks by their numbers; a task that has exited is none. -/
structure Tasks where
  get : ℕ → Option Task
  count : ℕ
  bound : ∀ t, count ≤ t → get t = none

namespace Tasks

variable (ts : Tasks) (t : ℕ)

def modify (f : Task → Task) : Tasks where
  get := update ts.get t ((ts.get t).map f)
  count := ts.count
  bound u hu := by
    by_cases htu : u = t
    · rw [htu, update_self, ts.bound t (htu ▸ hu), Option.map_none]
    · rw [update_of_ne htu, ts.bound u hu]

def remove : Tasks where
  get := update ts.get t none
  count := ts.count
  bound u hu := by
    by_cases htu : u = t
    · rw [htu, update_self]
    · rw [update_of_ne htu, ts.bound u hu]

def add (task : Task) : Tasks where
  get := update ts.get ts.count (some task)
  count := ts.count + 1
  bound u hu := by rw [update_of_ne (by omega), ts.bound u (by omega)]

def slot (x : ℕ × Fin 32) : ℕ := ((ts.get x.1).map fun task => task.fdTable x.2).getD 0

def slots : Finset (ℕ × Fin 32) := Finset.range ts.count ×ˢ Finset.univ

end Tasks

structure State where
  dentries : Cells Dentry
  inodes : Cells Inode
  files : Cells File
  root : ℕ
  tasks : Tasks

/-- What the allocator and the devices answer during a call. -/
structure Memory where
  dentry : ℕ
  inode : ℕ
  file : ℕ
  ram : Bool
  data : Bool
  name : Bool
  junk : ℕ → Byte

/-- There is memory for everything; the records come to be at these addresses. -/
def Memory.plenty (dentry inode file : ℕ) : Memory where
  dentry := dentry
  inode := inode
  file := file
  ram := true
  data := true
  name := true
  junk := fun _ => 0

namespace State

variable (s : State)

def fileOf (x : ℕ × Fin 32) : Option ℕ := if s.tasks.slot x = 0 then none else some (s.tasks.slot x)

def inodeOf (x : ℕ × Fin 32) : Option ℕ := (s.fileOf x).map fun p => (s.files.get p).inode

def fileSlots (p : ℕ) : Finset (ℕ × Fin 32) := Holders.holders s.tasks.slots s.fileOf p

def inodeSlots (p : ℕ) : Finset (ℕ × Fin 32) := Holders.holders s.tasks.slots s.inodeOf p

end State

end Aevros.Vfs
