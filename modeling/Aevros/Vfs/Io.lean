import Aevros.Library.Buffer
import Aevros.Vfs.Slots

/-! # Reading and writing

`sys_read` and `sys_write` call RAMFS, which doubles the buffer of a file when it is too small, or
the terminal. `none` is a call that does not return or leaves its buffer.
-/

namespace Aevros.Vfs

open Buffer

/-- What a call answers: the returned value, and the bytes it has read. -/
structure Answer where
  value : ℤ
  bytes : List Byte
  deriving DecidableEq

def Answer.err : Answer := ⟨vfsErr, []⟩

def ramfsRead (inode : Inode) (offset size : Word) : Option (Word × List Byte) :=
  match inode.fsPrivate with
  | none => some (-1, [])
  | some ram =>
    if inode.size < offset then some (0, [])
    else
      let size := if inode.size < offset + size then inode.size - offset else size
      if ram.capacity.toNat < offset.toNat + size.toNat then none
      else some (size, window ram.data offset.toNat size.toNat)

/-- The loop of `ramfs_expand`. After 32 turns the capacity is 0, and stays so. -/
def growCap (needed : Word) : ℕ → Word → Option Word
  | 0, _ => none
  | fuel + 1, cap => if cap < needed then growCap needed fuel (cap * 2) else some cap

/-- `ramfs_expand`; there may be no memory for the new buffer. -/
def ramfsExpand (ram : RamInode) (needed : Word) (mem : Memory) : Option (Option RamInode) :=
  if needed ≤ ram.capacity then some (some ram)
  else (growCap needed 33 ram.capacity).bind fun cap =>
    -- `kmalloc_raw` does not return for 2^31 bytes
    if 0x80000000 ≤ cap then none
    else some (if mem.data then
      some { data := patch mem.junk 0 ram.capacity.toNat ram.data, capacity := cap } else none)

def ramfsWrite (inode : Inode) (offset size : Word) (buf : ℕ → Byte) (mem : Memory) :
    Option (Word × Inode) :=
  match inode.fsPrivate with
  | none => some (-1, inode)
  | some ram =>
    match if ram.capacity < offset + size then ramfsExpand ram (offset + size) mem
      else some (some ram) with
    | none => none
    | some none => some (-1, inode)
    | some (some ram) =>
      if ram.capacity.toNat < offset.toNat + size.toNat then none
      else some (size, { inode with
        size := if inode.size < offset + size then offset + size else inode.size
        fsPrivate := some { ram with data := patch ram.data offset.toNat size.toNat buf } })

def newline : Byte := 0x0A

/-- `tty_read`: what is typed, up to the end of a line. -/
def ttyRead (size : ℕ) (typed : ℕ → Byte) : List Byte :=
  let line := window typed 0 size
  line.takeWhile (· ≠ newline) ++ (line.dropWhile (· ≠ newline)).take 1

namespace State

variable (s : State)

/-- The checks of `sys_read` and `sys_write`: the file of the descriptor, and its operations. -/
def fileFor (t : ℕ) (fd : ℤ) (mode : Word) : Option (ℕ × Ops) :=
  match fdOf fd with
  | none => none
  | some fd =>
    let p := s.tasks.slot (t, fd)
    let file := s.files.get p
    if p = 0 ∨ file.inode = 0 then none
    else match (s.inodes.get file.inode).ops with
      | none => none
      | some ops =>
        if !has file.flags mode && !has file.flags readWrite then none else some (p, ops)

def advance (p : ℕ) (n : Word) : State :=
  if 0 < n.toInt then
    { s with files := s.files.modify p fun file => { file with offset := file.offset + n } }
  else s

def opsRead (ops : Ops) (file : File) (size : Word) (typed : ℕ → Byte) :
    Option (Word × List Byte) :=
  match ops with
  | .ramfs =>
    if file.dentry = 0 then none
    else ramfsRead (s.inodes.get (s.dentries.get file.dentry).inode) file.offset size
  | .tty => some (BitVec.ofNat 32 (ttyRead size.toNat typed).length, ttyRead size.toNat typed)

def opsWrite (ops : Ops) (file : File) (size : Word) (buf : ℕ → Byte) (mem : Memory) :
    Option (Word × State) :=
  match ops with
  | .ramfs =>
    let q := (s.dentries.get file.dentry).inode
    if file.dentry = 0 then none
    else (ramfsWrite (s.inodes.get q) file.offset size buf mem).map fun (n, inode) =>
      (n, { s with inodes := s.inodes.modify q fun _ => inode })
  | .tty => some (size, s)

def sysRead (t : ℕ) (fd : ℤ) (size : Word) (typed : ℕ → Byte) : Option (Answer × State) :=
  match s.fileFor t fd readOnly with
  | none => some (.err, s)
  | some (p, ops) => (s.opsRead ops (s.files.get p) size typed).map fun (n, bytes) =>
    (⟨n.toInt, bytes⟩, s.advance p n)

def sysWrite (t : ℕ) (fd : ℤ) (size : Word) (buf : ℕ → Byte) (mem : Memory) :
    Option (Answer × State) :=
  match s.fileFor t fd writeOnly with
  | none => some (.err, s)
  | some (p, ops) => (s.opsWrite ops (s.files.get p) size buf mem).map fun (n, s) =>
    (⟨n.toInt, []⟩, s.advance p n)

end State

inductive Io
  | open (path : List Byte) (flags : Word)
  | read (fd : ℤ) (size : Word) (typed : ℕ → Byte)
  | write (fd : ℤ) (size : Word) (buf : ℕ → Byte)
  | close (fd : ℤ)

structure IoEvent where
  task : ℕ
  call : Io
  mem : Memory

def State.io (s : State) (t : ℕ) (task : Task) (mem : Memory) : Io → Option (Answer × State)
  | .open path flags => (s.sysOpen t task path flags mem).map fun (r, s) => (⟨r, []⟩, s)
  | .read fd size typed => s.sysRead t fd size typed
  | .write fd size buf => s.sysWrite t fd size buf mem
  | .close fd => some (⟨(s.sysClose t fd).1, []⟩, (s.sysClose t fd).2)

/-- A call of a task that exists, with its answer. -/
def IoStep (s : State) (e : IoEvent) (a : Answer) (s' : State) : Prop :=
  ∃ task, s.tasks.get e.task = some task ∧ s.io e.task task e.mem e.call = some (a, s')

/-- Calls that are allowed by `P`, with their answers. -/
inductive Trace (P : State → IoEvent → Prop) : State → List (IoEvent × Answer) → State → Prop
  | nil {s : State} : Trace P s [] s
  | cons {s s₁ s₂ : State} {e : IoEvent} {a : Answer} {l : List (IoEvent × Answer)} : P s e →
    IoStep s e a s₁ → Trace P s₁ l s₂ → Trace P s ((e, a) :: l) s₂

namespace State

variable {s : State} {t p : ℕ} {fd : ℤ} {mode : Word} {ops : Ops}

theorem fileFor_eq_some (h : s.fileFor t fd mode = some (p, ops)) :
    ∃ k, fdOf fd = some k ∧ s.tasks.slot (t, k) = p ∧ p ≠ 0 ∧ (s.files.get p).inode ≠ 0 ∧
      (s.inodes.get (s.files.get p).inode).ops = some ops ∧
      (has (s.files.get p).flags mode = true ∨ has (s.files.get p).flags readWrite = true) := by
  rw [fileFor] at h
  cases hk : fdOf fd with
  | none => rw [hk] at h; cases h
  | some k =>
    rw [hk] at h
    dsimp only at h
    by_cases hzero : s.tasks.slot (t, k) = 0 ∨ (s.files.get (s.tasks.slot (t, k))).inode = 0
    · rw [if_pos hzero] at h
      cases h
    rw [if_neg hzero] at h
    cases hops : (s.inodes.get (s.files.get (s.tasks.slot (t, k))).inode).ops with
    | none => rw [hops] at h; cases h
    | some ops' =>
      rw [hops] at h
      split_ifs at h with hmode
      cases h
      refine ⟨k, rfl, rfl, fun h0 => hzero (.inl h0), fun h0 => hzero (.inr h0), hops, ?_⟩
      simpa [or_iff_not_imp_left] using hmode

section

variable (n : Word)

theorem tasks_advance : (s.advance p n).tasks = s.tasks := by
  rw [advance]
  split_ifs <;> rfl

theorem inodes_advance : (s.advance p n).inodes = s.inodes := by
  rw [advance]
  split_ifs <;> rfl

theorem dentries_advance : (s.advance p n).dentries = s.dentries := by
  rw [advance]
  split_ifs <;> rfl

theorem root_advance : (s.advance p n).root = s.root := by
  rw [advance]
  split_ifs <;> rfl

theorem files_live_advance : (s.advance p n).files.live = s.files.live := by
  rw [advance]
  split_ifs <;> rfl

end

theorem get_advance_field {β : Type*} {g : File → β}
    (hg : ∀ file n, g { file with offset := n } = g file) (n : Word) (q : ℕ) :
    g ((s.advance p n).files.get q) = g (s.files.get q) := by
  rw [advance]
  split_ifs
  · exact Cells.get_modify_field (fun file => hg file _) q
  · rfl

end State

end Aevros.Vfs
