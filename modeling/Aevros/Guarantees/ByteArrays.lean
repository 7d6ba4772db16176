import Aevros.Guarantees.AccessModes

/-! # Files are byte arrays

A file is a list of bytes that grows, and a descriptor a position in it. `Arrays` says what the
calls do to such files, and the calls of the kernel do that.
-/

namespace Aevros.Vfs

open BitVec Cells Buffer State Function

inductive Object
  | bytes (l : List Byte)
  | device
  | other

structure Handle where
  file : ℕ
  offset : ℕ
  flags : Word

/-- The known files, the open files, and which of them each descriptor refers to. -/
structure Arrays where
  object : ℕ → Object
  known : Finset ℕ
  handle : ℕ → Handle
  slot : ℕ × Fin 32 → ℕ

namespace Arrays

variable (A A' : Arrays) (t : ℕ) (fd : ℤ) (a : Answer)

def fileFor : Option ℕ :=
  match fdOf fd with
  | none => none
  | some k =>
    let p := A.slot (t, k)
    if p = 0 ∨ has (A.handle p).flags readWrite = false then none else some p

def seek (p offset : ℕ) : Arrays :=
  { A with handle := update A.handle p { A.handle p with offset := offset } }

def Reads (n : ℕ) : Prop :=
  match A.fileFor t fd with
  | none => a = .err ∧ A' = A
  | some p =>
    let offset := (A.handle p).offset
    match A.object (A.handle p).file with
    | .other => a = .err ∧ A' = A
    | .device => ∃ m, A' = A.seek p m
    | .bytes l =>
      let part := (l.drop offset).take n
      a = ⟨part.length, part⟩ ∧ A' = A.seek p (offset + part.length)

/-- The array is replaced from the offset on, or nothing is changed for want of memory. -/
def Writes (mem : Memory) (new : List Byte) : Prop :=
  match A.fileFor t fd with
  | none => a = .err ∧ A' = A
  | some p =>
    let file := (A.handle p).file
    let offset := (A.handle p).offset
    match A.object file with
    | .other => a = .err ∧ A' = A
    | .device => ∃ m, A' = A.seek p m
    | .bytes l =>
      a = .err ∧ A' = A ∧ mem.data = false ∨
      a = ⟨new.length, []⟩ ∧ A' = { A with
        object := update A.object file (.bytes (overwrite l offset new)) }.seek p
          (offset + new.length)

/-- Known files stay; a new descriptor is at the start of one of them or of a new, empty one. -/
structure Opens (flags : Word) : Prop where
  known : A.known ⊆ A'.known
  object : ∀ q ∈ A.known, A'.object q = A.object q
  answer : (a = .err ∧ A'.handle = A.handle ∧ A'.slot = A.slot) ∨
    ∃ (k : Fin 32) (p q : ℕ), a = ⟨k.val, []⟩ ∧ A.slot (t, k) = 0 ∧ p ≠ 0 ∧ (∀ x, A.slot x ≠ p) ∧
      q ∈ A'.known ∧ (q ∉ A.known → A'.object q = .bytes []) ∧
      A'.handle = update A.handle p ⟨q, 0, flags⟩ ∧
      A'.slot = update A.slot (t, k) p

def Closes : Prop :=
  match fdOf fd with
  | none => a = .err ∧ A' = A
  | some k =>
    if A.slot (t, k) = 0 then a = .err ∧ A' = A
    else a = ⟨0, []⟩ ∧ A' = { A with slot := update A.slot (t, k) 0 }

def Step (e : IoEvent) : Prop :=
  match e.call with
  | .open _ flags => A.Opens A' e.task a flags
  | .read fd size _ => A.Reads A' e.task fd a size.toNat
  | .write fd size buf => A.Writes A' e.task fd a e.mem (window buf 0 size.toNat)
  | .close fd => A.Closes A' e.task fd a

inductive Run : Arrays → List (IoEvent × Answer) → Arrays → Prop
  | nil {A : Arrays} : Run A [] A
  | cons {A A₁ A₂ : Arrays} {e : IoEvent} {a : Answer} {l : List (IoEvent × Answer)} :
    A.Step A₁ a e → Run A₁ l A₂ → Run A ((e, a) :: l) A₂

end Arrays

def Inode.object (inode : Inode) : Object :=
  match inode.ops with
  | none => .other
  | some .tty => .device
  | some .ramfs =>
    match inode.fsPrivate with
    | none => .other
    | some _ => .bytes inode.contents

def File.handle (file : File) : Handle := ⟨file.inode, file.offset.toNat, file.flags⟩

def State.arrays (s : State) : Arrays where
  object q := (s.inodes.get q).object
  known := s.inodes.live
  handle p := (s.files.get p).handle
  slot := s.tasks.slot

/-- The end of what is read or written is at most 2^30. -/
def Bounded (s : State) (e : IoEvent) : Prop :=
  match e.call with
  | .read fd size _ | .write fd size _ => EndsBelow s e.task fd size (2 ^ 30 + 1)
  | _ => True

variable {T : Finset ℕ} {s s' : State} {t p : ℕ} {fd : ℤ} {a : Answer} {mode size n : Word}
  {ops : Ops} {mem : Memory} {buf typed : ℕ → Byte}

theorem has_readWrite {flags : Word} (hmode : mode &&& readWrite = mode)
    (h : has flags mode = true) : has flags readWrite = true := by
  simp only [has, decide_eq_true_eq] at h ⊢
  intro hzero
  refine h ?_
  rw [← hmode, BitVec.and_comm mode, ← BitVec.and_assoc, hzero]
  exact BitVec.zero_and

theorem arrays_fileFor_of_some (hmode : mode &&& readWrite = mode)
    (hfile : s.fileFor t fd mode = some (p, ops)) : s.arrays.fileFor t fd = some p := by
  obtain ⟨k, hk, rfl, hp, -, -, hflags⟩ := fileFor_eq_some hfile
  have hrw := hflags.elim (has_readWrite hmode) id
  rw [Arrays.fileFor, hk]
  exact if_neg (not_or.mpr ⟨hp, fun hfalse => Bool.false_ne_true (hfalse.symm.trans hrw)⟩)

theorem arrays_fileFor_eq_some (h : s.arrays.fileFor t fd = some p) :
    ∃ k, fdOf fd = some k ∧ s.tasks.slot (t, k) = p ∧ p ≠ 0 ∧
      has (s.files.get p).flags readWrite = true := by
  rw [Arrays.fileFor] at h
  cases hk : fdOf fd with
  | none =>
    rw [hk] at h
    cases h
  | some k =>
    rw [hk] at h
    dsimp only at h
    split_ifs at h with hused
    cases h
    obtain ⟨hp, hflags⟩ := not_or.mp hused
    exact ⟨k, rfl, rfl, hp, Bool.eq_true_of_not_eq_false hflags⟩

theorem arrays_fileFor_of_none (h : Sound T s) (hfile : s.fileFor t fd mode = none) :
    s.arrays.fileFor t fd = none ∨ ∃ p, s.arrays.fileFor t fd = some p ∧
      s.arrays.object (s.arrays.handle p).file = .other := by
  cases hA : s.arrays.fileFor t fd with
  | none => exact .inl rfl
  | some p =>
    obtain ⟨k, hk, rfl, hp, hflags⟩ := arrays_fileFor_eq_some hA
    have hinode : (s.files.get (s.tasks.slot (t, k))).inode ≠ 0 := fun hzero =>
      h.inode_null (hzero ▸ (h.file (t, k) hp).inode)
    refine .inr ⟨_, rfl, ?_⟩
    change (s.inodes.get (s.files.get (s.tasks.slot (t, k))).inode).object = .other
    rw [State.fileFor, hk] at hfile
    dsimp only at hfile
    rw [if_neg (not_or.mpr ⟨hp, hinode⟩)] at hfile
    cases hops : (s.inodes.get (s.files.get (s.tasks.slot (t, k))).inode).ops with
    | none => rw [Inode.object, hops]
    | some ops =>
      rw [hops] at hfile
      simp [hflags] at hfile

theorem arrays_advance : (s.advance p n).arrays =
    s.arrays.seek p ((s.advance p n).files.get p).offset.toNat := by
  have hhandle : (s.advance p n).arrays.handle = update s.arrays.handle p
      { s.arrays.handle p with offset := ((s.advance p n).files.get p).offset.toNat } := by
    funext q
    by_cases hq : q = p
    · rw [hq, update_self]
      change (⟨((s.advance p n).files.get p).inode, _, ((s.advance p n).files.get p).flags⟩ :
        Handle) = ⟨(s.files.get p).inode, _, (s.files.get p).flags⟩
      rw [get_advance_field (g := File.inode) fun _ _ => rfl,
        get_advance_field (g := File.flags) fun _ _ => rfl]
    · rw [update_of_ne hq, State.advance]
      split_ifs
      · change ((s.files.modify p fun file => { file with offset := file.offset + n }).get q).handle
          = _
        rw [get_modify_of_ne hq]
        rfl
      · rfl
  rw [Arrays.seek, ← hhandle]
  simp only [State.arrays, inodes_advance, tasks_advance]

theorem offset_advance (hn : n.toNat < 2 ^ 31)
    (hend : (s.files.get p).offset.toNat + n.toNat < 2 ^ 32) :
    ((s.advance p n).files.get p).offset.toNat = (s.files.get p).offset.toNat + n.toNat := by
  have hint : n.toInt = n.toNat := toInt_eq_toNat_of_lt (by omega)
  rw [State.advance]
  split_ifs with hpos
  · rw [get_modify_self]
    rw [toNat_add, Nat.mod_eq_of_lt hend]
  · omega

section Objects

variable {inode : Inode}

theorem object_bytes {ram : RamInode} (hops : inode.ops = some .ramfs)
    (hram : inode.fsPrivate = some ram) : inode.object = .bytes inode.contents := by
  rw [Inode.object, hops, hram]

theorem object_empty (hops : inode.ops = some .ramfs) (hram : inode.fsPrivate = none) :
    inode.object = .other := by rw [Inode.object, hops, hram]

theorem object_tty (hops : inode.ops = some .tty) : inode.object = .device := by
  rw [Inode.object, hops]

theorem arrays_object (s : State) (p : ℕ) : s.arrays.object (s.arrays.handle p).file =
    (s.inodes.get (s.files.get p).inode).object := rfl

end Objects

theorem object_install {file : File} {k : Fin 32} (q : ℕ) :
    ((s.install t k p file).inodes.get q).object = (s.inodes.get q).object := by
  have hfield : ∀ inode : Inode, inode.addRef.object = inode.object := fun _ => rfl
  exact get_modify_field hfield q

theorem arrays_closes {task : Task} (htask : s.tasks.get t = some task) (fd : ℤ) :
    s.arrays.Closes (s.sysClose t fd).2.arrays t fd ⟨(s.sysClose t fd).1, []⟩ := by
  rw [Arrays.Closes, State.sysClose]
  cases fdOf fd with
  | none => exact ⟨rfl, rfl⟩
  | some k =>
    change if s.tasks.slot (t, k) = 0 then _ else _
    dsimp only
    split_ifs
    · exact ⟨rfl, rfl⟩
    · refine ⟨rfl, ?_⟩
      rw [State.arrays, inodes_live_closeSlot]
      congr 1
      · exact funext fun q => inode_closeSlot_field (g := Inode.object) (fun _ => rfl) q
      · exact funext fun q => get_closeSlot_field (g := File.handle) (fun _ => rfl) q
      · exact Tasks.slot_setFd htask k 0

section

variable (h : Sound T s)

include h

theorem arrays_reads (hend : EndsBelow s t fd size (2 ^ 30 + 1))
    (hcall : s.sysRead t fd size typed = some (a, s')) :
    s.arrays.Reads s'.arrays t fd a size.toNat := by
  rw [Arrays.Reads]
  rcases h.sysRead_cases hcall with ⟨hfile, rfl, rfl⟩ | ⟨p, hfile, hram, rfl, rfl⟩ |
    ⟨p, ram, hfile, hram, hbytes, n, hn, hvalue, rfl⟩ | ⟨p, n, hfile, rfl⟩
  · rcases arrays_fileFor_of_none h hfile with hA | ⟨p, hA, hobject⟩
    · rw [hA]
      exact ⟨rfl, rfl⟩
    · rw [hA]
      dsimp only
      rw [hobject]
      exact ⟨rfl, rfl⟩
  · obtain ⟨-, -, -, -, -, hops, -⟩ := fileFor_eq_some hfile
    rw [arrays_fileFor_of_some rfl hfile]
    dsimp only
    rw [arrays_object, object_empty hops hram]
    exact ⟨rfl, rfl⟩
  · obtain ⟨-, -, -, -, -, hops, -⟩ := fileFor_eq_some hfile
    have hoffset : (s.arrays.handle p).offset = (s.files.get p).offset.toNat := rfl
    rw [arrays_fileFor_of_some rfl hfile]
    dsimp only
    rw [arrays_object, object_bytes hops hram]
    dsimp only
    rw [hoffset, ← hbytes, ← hn]
    have hbelow := hend.fileFor hfile
    have hle : n.toNat ≤ size.toNat := by
      rw [hn, hbytes, List.length_take]
      exact Nat.min_le_left ..
    refine ⟨?_, ?_⟩
    · rw [← toInt_eq_toNat_of_lt (by omega), ← hvalue]
    · rw [arrays_advance, offset_advance (by omega) (by omega)]
  · obtain ⟨-, -, -, -, -, hops, -⟩ := fileFor_eq_some hfile
    rw [arrays_fileFor_of_some rfl hfile]
    dsimp only
    rw [arrays_object, object_tty hops]
    exact ⟨_, arrays_advance⟩

theorem arrays_writes (hend : EndsBelow s t fd size (2 ^ 30 + 1))
    (hcall : s.sysWrite t fd size buf mem = some (a, s')) :
    s.arrays.Writes s'.arrays t fd a mem (window buf 0 size.toNat) := by
  rw [Arrays.Writes]
  rcases h.sysWrite_cases hcall with ⟨hfile, rfl, rfl⟩ | ⟨p, hfile, hwhy, rfl, rfl⟩ |
    ⟨p, ram, inode', hfile, hram, rfl, hops', hsome, -, -, hcontents, rfl⟩ | ⟨p, hfile, rfl⟩
  · rcases arrays_fileFor_of_none h hfile with hA | ⟨p, hA, hobject⟩
    · rw [hA]
      exact ⟨rfl, rfl⟩
    · rw [hA]
      dsimp only
      rw [hobject]
      exact ⟨rfl, rfl⟩
  · obtain ⟨-, -, -, -, -, hops, -⟩ := fileFor_eq_some hfile
    cases hram : (s'.inodes.get (s'.files.get p).inode).fsPrivate with
    | none =>
      rw [arrays_fileFor_of_some rfl hfile]
      dsimp only
      rw [arrays_object, object_empty hops hram]
      exact ⟨rfl, rfl⟩
    | some ram =>
      rw [arrays_fileFor_of_some rfl hfile]
      dsimp only
      rw [arrays_object, object_bytes hops hram]
      refine .inl ⟨rfl, rfl, hwhy.resolve_left ?_⟩
      rw [hram]
      nofun
  · obtain ⟨-, -, -, -, -, hops, -⟩ := fileFor_eq_some hfile
    obtain ⟨ram', hram'⟩ := Option.isSome_iff_exists.mp hsome
    rw [arrays_fileFor_of_some rfl hfile]
    dsimp only
    rw [arrays_object, object_bytes hops hram]
    have hbelow := hend.fileFor hfile
    refine .inr ⟨?_, ?_⟩
    · rw [length_window, toInt_eq_toNat_of_lt (by omega)]
    · rw [arrays_advance, offset_advance (by omega) (by dsimp only; omega), length_window]
      have hobject : (fun q =>
          ((s.inodes.modify (s.files.get p).inode fun _ => inode').get q).object) =
          update s.arrays.object (s.files.get p).inode (.bytes (overwrite
            (s.inodes.get (s.files.get p).inode).contents (s.files.get p).offset.toNat
            (window buf 0 size.toNat))) := by
        funext q
        by_cases hq : q = (s.files.get p).inode
        · rw [hq, get_modify_self, update_self, object_bytes hops' hram', hcontents]
        · rw [get_modify_of_ne hq, update_of_ne hq]
          rfl
      change Arrays.seek { s.arrays with object := fun q => _ } p _ = _
      rw [hobject]
      rfl
  · obtain ⟨-, -, -, -, -, hops, -⟩ := fileFor_eq_some hfile
    rw [arrays_fileFor_of_some rfl hfile]
    dsimp only
    rw [arrays_object, object_tty hops]
    exact ⟨_, arrays_advance⟩

theorem arrays_opens {task : Task} {path : List Byte} {flags : Word} {r : ℤ}
    (htask : s.tasks.get t = some task) (hcall : s.sysOpen t task path flags mem = some (r, s')) :
    s.arrays.Opens s'.arrays t ⟨r, []⟩ flags := by
  obtain ⟨T', s₁, d, h₁, hfiles, htasks, hext, hrest⟩ := h.sysOpen_cases htask hcall
  have hobject : ∀ q ∈ s.inodes.live, (s₁.inodes.get q).object = (s.inodes.get q).object :=
    fun q hq => by rw [hext.get q hq]
  rcases hrest with ⟨rfl, rfl⟩ | ⟨hd, k, rfl, hk, hp, rfl⟩
  · refine ⟨hext.live, hobject, .inl ⟨rfl, ?_, ?_⟩⟩
    · simp only [State.arrays, hfiles]
    · simp only [State.arrays, htasks]
  · have hfree := fresh_notMem hp
    refine ⟨hext.live, fun q hq => (object_install q).trans (hobject q hq),
      .inr ⟨k, s.files.fresh mem.file, (s₁.dentries.get d).inode, rfl, ?_, hp, fun x hx => ?_,
        h₁.inode d hd, fun hnew => ?_, ?_, ?_⟩⟩
    · exact (Tasks.slot_of_get htask).trans hk
    · have hslot : s.tasks.slot x = s.files.fresh mem.file := hx
      exact hfree (hslot ▸ h.held x (hslot.symm ▸ hp))
    · obtain ⟨junk, hjunk⟩ := hext.new (fun hzero => h₁.null (hzero ▸ hd)) hnew
      refine (object_install _).trans ?_
      rw [hjunk]
      rfl
    · funext q
      change ((s₁.files.put _ (s₁.newOpen d flags)).get q).handle = _
      by_cases hq : q = s.files.fresh mem.file
      · rw [hq, update_self, get_put_self]
        rfl
      · rw [update_of_ne hq, get_put_of_ne hq, hfiles]
        rfl
    · change (s₁.tasks.modify t fun task => task.setFd k _).slot = _
      rw [Tasks.slot_setFd (htasks ▸ htask), htasks]
      rfl

theorem arrays_step {e : IoEvent} (hbound : Bounded s e) (hstep : IoStep s e a s') :
    s.arrays.Step s'.arrays a e := by
  obtain ⟨u, call, mem⟩ := e
  obtain ⟨task, htask, hcall⟩ := hstep
  cases call with
  | «open» path flags =>
    obtain ⟨⟨r, s₁⟩, hopen, heq⟩ := Option.map_eq_some_iff.mp hcall
    cases heq
    exact arrays_opens h htask hopen
  | read fd size typed => exact arrays_reads h hbound hcall
  | write fd size buf => exact arrays_writes h hbound hcall
  | close fd =>
    cases hcall
    exact arrays_closes htask fd

theorem arrays_run {l : List (IoEvent × Answer)} (hrun : Trace Bounded s l s') :
    s.arrays.Run l s'.arrays ∧ ∃ T', Sound T' s' := by
  induction hrun generalizing T with
  | nil => exact ⟨.nil, T, h⟩
  | cons hbound hstep hrest ih =>
    obtain ⟨T₁, h₁⟩ := h.step hstep
    obtain ⟨hrun, hsound⟩ := ih h₁
    exact ⟨.cons (arrays_step h hbound hstep) hrun, hsound⟩

-- Flags of zero ask no mode of a descriptor.
omit h in
theorem proper_of_bounded {e : IoEvent} (hbound : Bounded s e) : Proper (fun _ => 0) s e := by
  obtain ⟨u, call, mem⟩ := e
  have hright : ∀ fd mode, RightMode (fun _ => 0) s u fd mode :=
    fun _ _ _ _ _ hhas => by simp [has] at hhas
  cases call with
  | read | write => exact ⟨hright _ _, fun k hk hp => (hbound k hk hp).trans (by decide)⟩
  | «open» | close => trivial

/-- Whatever calls are made, the files are the byte arrays that the calls should make of them. -/
theorem files_are_arrays {l : List (IoEvent × Answer)} (hrun : Trace Bounded s l s') :
    s.arrays.Run l s'.arrays ∧ ∀ e, Bounded s' e → (∃ task, s'.tasks.get e.task = some task) →
        (∀ path flags, e.call ≠ .open path flags) → ∃ a s'', IoStep s' e a s'' := by
  obtain ⟨harrays, T', h'⟩ := arrays_run h hrun
  refine ⟨harrays, fun e hbound htask hio => ?_⟩
  refine returns_of_proper h' (proper_of_bounded hbound) htask hio fun fd size buf hcall => ?_
  rwa [Bounded, hcall] at hbound

end

def openAgain : IoEvent := ⟨0, .open [slash, 0x66] readOnly, Memory.plenty 5 5 5⟩

def readF : IoEvent := ⟨0, .read 4 8 fun _ => 0, Memory.plenty 5 5 5⟩

theorem byte_written_and_read : (boot true).arrays.Run
    [(openF readWrite, ⟨3, []⟩), (writeF, ⟨1, []⟩), (openAgain, ⟨4, []⟩), (readF, ⟨1, [0x61]⟩)]
    ([openF readWrite, writeF, openAgain, readF].foldl afterIo (boot true)).arrays := by
  have hbound : ∀ {s : State} {fd : ℤ} {k : Fin 32} {size : Word} {bound : ℕ}, fdOf fd = some k →
      ((s.files.get (s.tasks.slot (0, k))).offset.toNat + size.toNat < bound) →
      EndsBelow s 0 fd size bound := by
    intro s fd k size bound hk hlt k' hk' _
    cases hk.symm.trans hk'
    exact hlt
  refine (files_are_arrays (sound_boot true) ?_).1
  refine .cons trivial ⟨_, rfl, rfl⟩ (.cons (hbound (k := 3) rfl ?_) ⟨_, rfl, rfl⟩
    (.cons trivial ⟨_, rfl, rfl⟩ (.cons (hbound (k := 4) rfl ?_) ⟨_, rfl, rfl⟩ .nil)))
  · decide +kernel
  · decide +kernel

end Aevros.Vfs
