import Aevros.Vfs.Sound

/-! # What the calls do to files

Each of `sys_read`, `sys_write` and `sys_open` by cases, over states as they should be; all of
them, and `sys_close`, lead to such states again.
-/

namespace Aevros.Vfs

open Cells Buffer Function BitVec Option Finset

variable {inode' : Inode} {size n : Word} {buf : ℕ → Byte} {mem : Memory}

namespace State

variable {T : Finset ℕ} {s s' : State} {t p : ℕ} {fd : ℤ} {typed : ℕ → Byte} {a : Answer}
  {mode : Word}

theorem advance_error : s.advance p (-1) = s := if_neg (by decide)

/-- The end of what a call reads or writes is below `bound`. -/
def EndsBelow (s : State) (t : ℕ) (fd : ℤ) (size : Word) (bound : ℕ) : Prop :=
  ∀ k, fdOf fd = some k → s.tasks.slot (t, k) ≠ 0 →
    (s.files.get (s.tasks.slot (t, k))).offset.toNat + size.toNat < bound

theorem EndsBelow.fileFor {bound : ℕ} {ops : Ops} (h : EndsBelow s t fd size bound)
    (hfile : s.fileFor t fd mode = some (p, ops)) :
    (s.files.get p).offset.toNat + size.toNat < bound := by
  obtain ⟨k, hk, rfl, hp, -⟩ := fileFor_eq_some hfile
  exact h k hk hp

section

variable (h : Sound T s)

include h

namespace Sound

theorem fileFor (hfile : s.fileFor t fd mode = some (p, .ramfs)) :
    (s.files.get p).dentry ∈ T ∧ (s.files.get p).dentry ≠ 0 ∧
      (s.dentries.get (s.files.get p).dentry).inode = (s.files.get p).inode ∧
      (s.files.get p).inode ∈ s.inodes.live ∧ (s.inodes.get (s.files.get p).inode).Sized ∧
      (s.files.get p).offset ≤ (s.inodes.get (s.files.get p).inode).size := by
  obtain ⟨k, -, hslot, hp, -, hops, -⟩ := fileFor_eq_some hfile
  have hok : FileOk T s (s.files.get p) := hslot ▸ h.file (t, k) (hslot ▸ hp)
  obtain ⟨hmem, hinode⟩ := hok.dentry hops
  refine ⟨hmem, fun hzero => h.null (hzero ▸ hmem), hinode, hok.inode, ?_, hok.offset hops⟩
  rw [← hinode]
  exact h.sized _ hmem

theorem sysRead_isSome (hend : EndsBelow s t fd size (2 ^ 32)) (typed : ℕ → Byte) :
    ∃ a s', s.sysRead t fd size typed = some (a, s') := by
  rw [sysRead]
  cases hfile : s.fileFor t fd readOnly with
  | none => exact ⟨_, _, rfl⟩
  | some found =>
    obtain ⟨p, ops⟩ := found
    cases ops with
    | tty => exact ⟨_, _, rfl⟩
    | ramfs =>
      obtain ⟨-, hzero, hinode, -, hsized, hoffset⟩ := h.fileFor hfile
      simp only [opsRead, if_neg hzero, hinode]
      cases hram : (s.inodes.get (s.files.get p).inode).fsPrivate with
      | none =>
        simp only [ramfsRead, hram]
        exact ⟨_, _, rfl⟩
      | some ram =>
        obtain ⟨n, bytes, hread⟩ := ramfsRead_isSome hram hoffset hsized (hend.fileFor hfile)
        rw [hread]
        exact ⟨_, _, rfl⟩

theorem sysWrite_isSome (hend : EndsBelow s t fd size (2 ^ 30 + 1)) (buf : ℕ → Byte)
    (mem : Memory) : ∃ a s', s.sysWrite t fd size buf mem = some (a, s') := by
  rw [sysWrite]
  cases hfile : s.fileFor t fd writeOnly with
  | none => exact ⟨_, _, rfl⟩
  | some found =>
    obtain ⟨p, ops⟩ := found
    cases ops with
    | tty => exact ⟨_, _, rfl⟩
    | ramfs =>
      obtain ⟨-, hzero, hinode, -, hsized, hoffset⟩ := h.fileFor hfile
      simp only [opsWrite, if_neg hzero, hinode]
      cases hram : (s.inodes.get (s.files.get p).inode).fsPrivate with
      | none =>
        simp only [ramfsWrite, hram]
        exact ⟨_, _, rfl⟩
      | some ram =>
        obtain ⟨n, inode', hwrite⟩ := ramfsWrite_isSome hram hsized
          (Nat.lt_succ_iff.mp (hend.fileFor hfile)) buf mem
        rw [hwrite]
        exact ⟨_, _, rfl⟩

theorem sysRead_cases (hcall : s.sysRead t fd size typed = some (a, s')) :
    (s.fileFor t fd readOnly = none ∧ a = .err ∧ s' = s) ∨
    (∃ p, s.fileFor t fd readOnly = some (p, .ramfs) ∧
      (s.inodes.get (s.files.get p).inode).fsPrivate = none ∧ a = .err ∧ s' = s) ∨
    (∃ p ram, s.fileFor t fd readOnly = some (p, .ramfs) ∧
      (s.inodes.get (s.files.get p).inode).fsPrivate = some ram ∧
      a.bytes = ((s.inodes.get (s.files.get p).inode).contents.drop
        (s.files.get p).offset.toNat).take size.toNat ∧
      ∃ n, n.toNat = a.bytes.length ∧ a.value = n.toInt ∧ s' = s.advance p n) ∨
    ∃ p n, s.fileFor t fd readOnly = some (p, .tty) ∧ s' = s.advance p n := by
  rw [sysRead] at hcall
  cases hfile : s.fileFor t fd readOnly with
  | none =>
    rw [hfile] at hcall
    cases hcall
    exact .inl ⟨rfl, rfl, rfl⟩
  | some found =>
    obtain ⟨p, ops⟩ := found
    rw [hfile] at hcall
    obtain ⟨⟨n, bytes⟩, hread, heq⟩ := map_eq_some_iff.mp hcall
    cases heq
    cases ops with
    | tty => exact .inr (.inr (.inr ⟨p, n, rfl, rfl⟩))
    | ramfs =>
      obtain ⟨-, hzero, hinode, -, -, hoffset⟩ := h.fileFor hfile
      simp only [opsRead, if_neg hzero, hinode] at hread
      cases hram : (s.inodes.get (s.files.get p).inode).fsPrivate with
      | none =>
        simp only [ramfsRead, hram] at hread
        cases hread
        exact .inr (.inl ⟨p, rfl, hram, rfl, advance_error⟩)
      | some ram =>
        obtain ⟨hbytes, hlen⟩ := ramfsRead_some hram hoffset hread
        exact .inr (.inr (.inl ⟨p, ram, rfl, hram, hbytes, n, hlen.symm, rfl, rfl⟩))

theorem sysWrite_cases (hcall : s.sysWrite t fd size buf mem = some (a, s')) :
    (s.fileFor t fd writeOnly = none ∧ a = .err ∧ s' = s) ∨
    (∃ p, s.fileFor t fd writeOnly = some (p, .ramfs) ∧
      ((s.inodes.get (s.files.get p).inode).fsPrivate = none ∨ mem.data = false) ∧ a = .err ∧
      s' = s) ∨
    (∃ p ram inode', s.fileFor t fd writeOnly = some (p, .ramfs) ∧
      (s.inodes.get (s.files.get p).inode).fsPrivate = some ram ∧ a = ⟨size.toInt, []⟩ ∧
      inode'.ops = some .ramfs ∧ inode'.fsPrivate.isSome ∧ inode'.Sized ∧
      inode'.size.toNat = max (s.inodes.get (s.files.get p).inode).size.toNat
        ((s.files.get p).offset.toNat + size.toNat) ∧
      inode'.contents = overwrite (s.inodes.get (s.files.get p).inode).contents
        (s.files.get p).offset.toNat (window buf 0 size.toNat) ∧
      s' = { s with inodes := s.inodes.modify (s.files.get p).inode fun _ => inode' }.advance
        p size) ∨
    ∃ p, s.fileFor t fd writeOnly = some (p, .tty) ∧ s' = s.advance p size := by
  rw [sysWrite] at hcall
  cases hfile : s.fileFor t fd writeOnly with
  | none =>
    rw [hfile] at hcall
    cases hcall
    exact .inl ⟨rfl, rfl, rfl⟩
  | some found =>
    obtain ⟨p, ops⟩ := found
    rw [hfile] at hcall
    obtain ⟨⟨n, s₁⟩, hwrite, heq⟩ := map_eq_some_iff.mp hcall
    cases heq
    cases ops with
    | tty =>
      cases hwrite
      exact .inr (.inr (.inr ⟨p, rfl, rfl⟩))
    | ramfs =>
      obtain ⟨-, hzero, hinode, -, hsized, hoffset⟩ := h.fileFor hfile
      obtain ⟨-, -, -, -, -, hops, -⟩ := fileFor_eq_some hfile
      simp only [opsWrite, if_neg hzero, hinode] at hwrite
      obtain ⟨⟨n', inode'⟩, hram', heq⟩ := map_eq_some_iff.mp hwrite
      cases heq
      cases hram : (s.inodes.get (s.files.get p).inode).fsPrivate with
      | none =>
        simp only [ramfsWrite, hram] at hram'
        cases hram'
        refine .inr (.inl ⟨p, rfl, .inl hram, rfl, ?_⟩)
        rw [modify_get_self]
        exact advance_error
      | some ram =>
        rcases ramfsWrite_some hram hoffset hsized hram' with
          ⟨rfl, rfl, hmem⟩ | ⟨rfl, hops', hsome, hsized', hsize, hcontents⟩
        · refine .inr (.inl ⟨p, rfl, .inr hmem, rfl, ?_⟩)
          rw [modify_get_self]
          exact advance_error
        · exact .inr (.inr (.inl ⟨p, ram, inode', rfl, hram, rfl, hops'.trans hops, hsome, hsized',
            hsize, hcontents, rfl⟩))

theorem advance
    (hn : (s.inodes.get (s.files.get p).inode).ops = some .ramfs → (s.files.get p).offset.toNat +
      n.toNat ≤ (s.inodes.get (s.files.get p).inode).size.toNat) : Sound T (s.advance p n) := by
  have hof : (s.advance p n).fileOf = s.fileOf := by
    funext x
    rw [fileOf, fileOf, tasks_advance]
  have hslots : (s.advance p n).fileSlots = s.fileSlots := by
    funext q
    rw [fileSlots, fileSlots, hof, tasks_advance]
  refine h.reslot (dentries_advance n) (root_advance n) (by rw [inodes_advance])
    (fun q => by rw [inodes_advance]; exact ⟨rfl, rfl, rfl⟩) (by rw [tasks_advance]; exact h.cwd)
    (by rw [tasks_advance, files_live_advance]; exact h.held) (fun q => ?_) fun x hx => ?_
  · rw [hslots, get_advance_field (g := File.refCount) fun _ _ => rfl]
    exact h.counted q
  · rw [tasks_advance] at hx ⊢
    have hok := h.file x hx
    rw [State.advance]
    split_ifs with hpos
    · by_cases hxp : s.tasks.slot x = p
      · rw [hxp] at hok ⊢
        rw [get_modify_self]
        refine ⟨hok.inode, hok.dentry, fun hops => ?_⟩
        have hle := hn hops
        rw [le_def]
        rw [toNat_add, Nat.mod_eq_of_lt (by omega)]
        exact hle
      · rw [get_modify_of_ne hxp]
        exact hok
    · exact hok

theorem rewrite {q : ℕ} (hops : inode'.ops = (s.inodes.get q).ops) (hsized : inode'.Sized)
    (hsize : (s.inodes.get q).size ≤ inode'.size) :
    Sound T { s with inodes := s.inodes.modify q fun _ => inode' } := by
  have hget : ∀ r, ((s.inodes.modify q fun _ => inode').get r).ops = (s.inodes.get r).ops ∧
      (s.inodes.get r).size ≤ ((s.inodes.modify q fun _ => inode').get r).size := by
    intro r
    by_cases hr : r = q
    · rw [hr, get_modify_self]
      exact ⟨hops, hsize⟩
    · rw [get_modify_of_ne hr]
      exact ⟨rfl, BitVec.le_refl _⟩
  refine ⟨h.live, h.null, h.root, h.cwd, h.parent, h.bucket, h.next, h.mount, h.inode_null, h.inode,
    fun d hd => ?_, h.held, h.counted, fun x hx => ?_⟩
  · by_cases hq : (s.dentries.get d).inode = q
    · rw [hq, get_modify_self]
      exact hsized
    · rw [get_modify_of_ne hq]
      exact h.sized d hd
  · exact (h.file x hx).mono subset_rfl (fun r hr => ⟨hr, hget r⟩) fun _ _ => rfl

theorem sysRead (hcall : s.sysRead t fd size typed = some (a, s')) : Sound T s' := by
  rcases h.sysRead_cases hcall with ⟨-, -, rfl⟩ | ⟨p, -, -, -, rfl⟩ |
    ⟨p, ram, hfile, hram, hbytes, n, hn, -, rfl⟩ | ⟨p, n, hfile, rfl⟩
  · exact h
  · exact h
  · obtain ⟨-, -, -, -, -, hoffset⟩ := h.fileFor hfile
    have hle := le_def.mp hoffset
    refine h.advance fun _ => ?_
    rw [hn, hbytes, List.length_take, List.length_drop, length_contents hram]
    omega
  · obtain ⟨-, -, -, -, -, hops, -⟩ := fileFor_eq_some hfile
    exact h.advance fun hram => by rw [hops] at hram; cases hram

theorem sysWrite (hcall : s.sysWrite t fd size buf mem = some (a, s')) : Sound T s' := by
  rcases h.sysWrite_cases hcall with ⟨-, -, rfl⟩ | ⟨p, -, -, -, rfl⟩ |
    ⟨p, ram, inode', hfile, hram, -, hops', -, hsized, hsize, -, rfl⟩ | ⟨p, hfile, rfl⟩
  · exact h
  · exact h
  · obtain ⟨-, -, -, -, -, hops, -⟩ := fileFor_eq_some hfile
    have hrewrite := h.rewrite (hops'.trans hops.symm) hsized (le_def.mpr (by omega))
    refine hrewrite.advance fun _ => ?_
    dsimp only
    rw [get_modify_self]
    omega
  · obtain ⟨-, -, -, -, -, hops, -⟩ := fileFor_eq_some hfile
    exact h.advance fun hram => by rw [hops] at hram; cases hram

end Sound

end

section Open

variable {task : Task} {path : List Byte} {flags : Word} {r : ℤ} {d d₀ : ℕ} {s₁ : State}

/-- What making a file leaves of the inodes, and where a new one is. -/
structure Extends (s s₁ : State) (d : ℕ) : Prop where
  live : s.inodes.live ⊆ s₁.inodes.live
  get : ∀ q ∈ s.inodes.live, s₁.inodes.get q = s.inodes.get q
  new : d ≠ 0 → (s₁.dentries.get d).inode ∉ s.inodes.live →
    ∃ junk, s₁.inodes.get (s₁.dentries.get d).inode = newFile junk

theorem Sound.findOrCreate (h : Sound T s) (htask : s.tasks.get t = some task)
    (hd₀ : d₀ = 0 ∨ d₀ ∈ T) (hcall : s.findOrCreate task path flags mem d₀ = some (d, s₁)) :
    ∃ T', Sound T' s₁ ∧ (d = 0 ∨ d ∈ T') ∧ Extends s s₁ d := by
  have hsame : ∀ d, (d = 0 ∨ d ∈ T) → Extends s s d := fun d hd =>
    ⟨subset_rfl, fun _ _ => rfl, fun hzero hnew => absurd (h.inode d (hd.resolve_left hzero)) hnew⟩
  rw [State.findOrCreate] at hcall
  split_ifs at hcall with hzero
  · rcases openCreate_cases hcall with ⟨rfl, rfl⟩ | ⟨parent, name, -, hparent, hne, -, hmade⟩
    · exact ⟨T, h, .inl rfl, hsame 0 (.inl rfl)⟩
    · have hmem := (h.resolveParentDir (h.cwd t task htask) hparent).resolve_left hne
      rcases ramfsCreateFiles_cases hmade with ⟨rfl, rfl | ⟨rfl, -⟩⟩ | ⟨rfl, hchild, hinode, rfl⟩
      · exact ⟨T, h, .inl rfl, hsame 0 (.inl rfl)⟩
      · refine ⟨T, h.leak _ _, .inl rfl, ?_, fun q _ => ?_, fun hne => absurd rfl hne⟩
        · rw [State.leak]
          dsimp only
          split_ifs
          · exact subset_rfl
          · exact subset_insert ..
        · rw [State.leak]
          split_ifs <;> rfl
      · have hfree := fresh_notMem hchild
        have hifree := fresh_notMem hinode
        have hapart : s.dentries.fresh mem.dentry ≠ parent := fun heq =>
          hfree (heq ▸ h.live hmem)
        refine ⟨_, h.link (some name) hmem hfree hchild hifree hinode (sized_newFile mem.junk),
          .inr (mem_insert_self ..), subset_insert .., fun q hq => ?_, fun _ _ => ?_⟩
        · exact get_put_of_ne fun heq => hifree (heq ▸ hq)
        · rw [get_link_child hapart]
          exact ⟨mem.junk, get_put_self⟩
  · cases hcall
    exact ⟨T, h, hd₀, hsame _ hd₀⟩

theorem Sound.sysOpen_cases (h : Sound T s) (htask : s.tasks.get t = some task)
    (hcall : s.sysOpen t task path flags mem = some (r, s')) :
    ∃ T' s₁ d, Sound T' s₁ ∧ s₁.files = s.files ∧ s₁.tasks = s.tasks ∧ Extends s s₁ d ∧
      (r = vfsErr ∧ s' = s₁ ∨ d ∈ T' ∧ ∃ k : Fin 32, r = k.val ∧ task.fdTable k = 0 ∧
        s.files.fresh mem.file ≠ 0 ∧
        s' = s₁.install t k (s.files.fresh mem.file) (s₁.newOpen d flags)) := by
  obtain ⟨d₀, d, s₁, hlookup, hmade, hrest⟩ := State.sysOpen_cases hcall
  obtain ⟨hfiles, htasks⟩ := findOrCreate_files hmade
  obtain ⟨T', h', hd, hext⟩ :=
    h.findOrCreate htask (h.vfsLookup (h.cwd t task htask) hlookup) hmade
  refine ⟨T', s₁, d, h', hfiles, htasks, hext, ?_⟩
  rcases hrest with ⟨-, rfl, rfl⟩ | ⟨hzero, hopen⟩
  · exact .inl ⟨rfl, rfl⟩
  · rcases openDentry_cases hopen with ⟨rfl, rfl⟩ | ⟨k, rfl, hk, hp, rfl⟩
    · exact .inl ⟨rfl, rfl⟩
    · rw [hfiles] at hp ⊢
      exact .inr ⟨hd.resolve_left hzero, k, rfl, hk, hp, rfl⟩

theorem Sound.sysOpen (h : Sound T s) (htask : s.tasks.get t = some task)
    (hcall : s.sysOpen t task path flags mem = some (r, s')) : ∃ T', Sound T' s' := by
  obtain ⟨T', s₁, d, h', hfiles, htasks, -, hrest⟩ := h.sysOpen_cases htask hcall
  rcases hrest with ⟨-, rfl⟩ | ⟨hd, k, -, hk, hp, rfl⟩
  · exact ⟨T', h'⟩
  · refine ⟨T', h'.install (htasks ▸ htask) hk hp ?_ hd⟩
    rw [hfiles]
    exact fresh_notMem hp

end Open

theorem Sound.sysClose {task : Task} (h : Sound T s) (htask : s.tasks.get t = some task) (fd : ℤ) :
    Sound T (s.sysClose t fd).2 := by
  rw [State.sysClose]
  cases fdOf fd with
  | none => exact h
  | some k =>
    dsimp only
    split_ifs with hzero
    · exact h
    · exact h.closeSlot htask rfl hzero

end State

open State

theorem State.Sound.step {T : Finset ℕ} {s s' : State} {e : IoEvent} {a : Answer} (h : Sound T s)
    (hstep : IoStep s e a s') : ∃ T', Sound T' s' := by
  obtain ⟨task, htask, hcall⟩ := hstep
  cases hio : e.call with
  | «open» path flags =>
    rw [hio] at hcall
    obtain ⟨⟨r, s₁⟩, hopen, heq⟩ := map_eq_some_iff.mp hcall
    cases heq
    exact h.sysOpen htask hopen
  | read fd size typed =>
    rw [hio] at hcall
    exact ⟨T, h.sysRead hcall⟩
  | write fd size buf =>
    rw [hio] at hcall
    exact ⟨T, h.sysWrite hcall⟩
  | close fd =>
    rw [hio] at hcall
    cases hcall
    exact ⟨T, h.sysClose htask fd⟩

theorem slot_boot_eq {tty : Bool} {x : ℕ × Fin 32} {p : ℕ} (hp : p ≠ 0)
    (h : (boot tty).tasks.slot x = p) : x.1 = 0 ∧ x.2.val + 1 = p := by
  obtain ⟨u, k⟩ := x
  have hmem := Tasks.mem_slots.mp (Tasks.mem_slots_of_ne_zero (h ▸ hp))
  obtain rfl : u = 0 := Nat.lt_one_iff.mp hmem
  change (if tty ∧ k.val < 3 then k.val + 1 else 0) = p at h
  split_ifs at h
  · exact ⟨rfl, h⟩
  · exact absurd h.symm hp

theorem sound_boot (tty : Bool) : Sound {1, 2} (boot tty) := by
  have hone : 1 ∈ ({1, 2} : Finset ℕ) := by decide
  have hlive : ∀ q ∈ ({1, 2, 3} : Finset ℕ), q ∈ (boot tty).inodes.live := fun _ hq => hq
  refine ⟨subset_rfl, by decide, hone, ?_, ?_, ?_, ?_, ?_, ?_, ?_, ?_, ?_, ?_, ?_⟩
  · intro t task htask
    change (if t = 0 then some _ else none) = some task at htask
    split_ifs at htask
    cases htask
    exact .inr hone
  · exact forall_boot (.inr hone) (.inr hone)
  · refine forall_boot (fun b => ?_) fun _ => .inl rfl
    change update (fun _ => 0) _ 2 b = 0 ∨ update (fun _ => 0) _ 2 b ∈ _
    by_cases hb : b = dentryHash [0x64, 0x65, 0x76]
    · rw [hb]
      exact .inr (by decide)
    · rw [update_of_ne hb]
      exact .inl rfl
  · exact forall_boot (.inl rfl) (.inl rfl)
  · exact forall_boot rfl rfl
  · change 0 ∉ ({1, 2, 3} : Finset ℕ)
    decide
  · exact forall_boot (hlive 1 (by decide)) (hlive 2 (by decide))
  · exact forall_boot nofun nofun
  · intro x hx
    obtain ⟨rfl, hmem⟩ := slot_boot hx
    exact hmem
  · intro p
    refine card_le_one.mpr fun x hx y hy => ?_
    obtain ⟨hxp, hp⟩ := fileOf_eq_some.mp (Holders.mem_holders.mp hx).2
    obtain ⟨hyp, -⟩ := fileOf_eq_some.mp (Holders.mem_holders.mp hy).2
    obtain ⟨hx₁, hx₂⟩ := slot_boot_eq hp hxp
    obtain ⟨hy₁, hy₂⟩ := slot_boot_eq hp hyp
    exact Prod.ext (hx₁.trans hy₁.symm) (Fin.ext (by omega))
  · exact fun x _ => ⟨hlive 3 (by decide), nofun, nofun⟩

end Aevros.Vfs
