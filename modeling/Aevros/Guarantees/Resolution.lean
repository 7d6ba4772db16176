import Aevros.Vfs.Rules

/-! # Where paths lead

A path is resolved one segment after the other. A segment of 256 characters that the walk comes to,
or as long a path of the parent, leaves its buffer.
-/

namespace Aevros.Vfs

open List

theorem matchSeg_iff {name seg : List Byte} : matchSeg name seg = true ↔ name = seg := by
  induction name generalizing seg with
  | nil => cases seg <;> simp [matchSeg]
  | cons c name ih => cases seg <;> simp [matchSeg, ih]

namespace State

variable {s : State} {d n cwd : ℕ} {seg path p q : List Byte} {segs a b : List (List Byte)}

theorem resolveFrom_append (hd : d ≠ 0) : s.resolveFrom d (a ++ b) =
    (s.resolveFrom d a).bind fun n => if n = 0 then some 0 else s.resolveFrom n b := by
  induction a generalizing d with
  | nil => simp [resolveFrom, hd]
  | cons seg a ih =>
    rw [cons_append, resolveFrom_cons, resolveFrom_cons seg a, Option.bind_assoc]
    congr 1
    funext n
    split_ifs with hn
    · rfl
    · exact ih hn

theorem resolveFrom_filter (hd : d ≠ 0) :
    s.resolveFrom d (segs.filter fun seg => seg ≠ dot) = s.resolveFrom d segs := by
  induction segs generalizing d with
  | nil => rfl
  | cons seg segs ih =>
    by_cases hdot : seg = dot
    · rw [filter_cons_of_neg (by simpa using hdot), ih hd, hdot]
      simp [resolveFrom, hd, pathBuffer, matchSeg_iff, dot]
    · rw [filter_cons_of_pos (by simpa using hdot), resolveFrom_cons, resolveFrom_cons seg segs]
      congr 1
      funext n
      split_ifs with hn
      · rfl
      · exact ih hn

theorem Tree.resolve_dotDot (h : Tree s) (hd : d ∈ s.dentries.live) :
    s.vfsResolvePath d dotDot = some (s.dentries.get d).parent := by
  have hsegs : segments dotDot = [dotDot] := by decide
  have hdot : matchSeg dot dotDot = false := by decide
  have hdots : matchSeg dotDot dotDot = true := by decide
  have hparent := h.ne_zero (h.parent_mem d hd)
  rw [vfsResolvePath_eq, if_neg (by decide), hsegs]
  simp [State.resolveFrom, h.ne_zero hd, pathBuffer, hdot, hdots, hparent,
    show dotDot.length = 2 from rfl]

theorem Tree.resolveFrom_isSome_iff (h : Tree s) (hd : d ∈ s.dentries.live) :
    (∃ r, s.resolveFrom d segs = some r) ↔ ∀ a seg b, segs = a ++ seg :: b →
      pathBuffer ≤ seg.length → s.resolveFrom d a = some 0 := by
  induction segs generalizing d with
  | nil => simp [State.resolveFrom]
  | cons seg segs ih =>
    by_cases hlong : pathBuffer ≤ seg.length
    · refine iff_of_false (by simp [State.resolveFrom, hlong]) fun hall => ?_
      exact h.ne_zero hd (Option.some.inj (hall [] seg segs rfl hlong))
    obtain ⟨n, hn, hmem⟩ := h.resolveSegment (not_le.mp hlong) hd
    have hcons : ∀ a, s.resolveFrom d (seg :: a) =
        if n = 0 then some 0 else s.resolveFrom n a := fun a => by
      rw [resolveFrom_cons, hn, Option.bind_some]
    have hsplit : (∀ a x b, seg :: segs = a ++ x :: b → pathBuffer ≤ x.length →
        s.resolveFrom d a = some 0) ↔ ∀ a x b, segs = a ++ x :: b → pathBuffer ≤ x.length →
          s.resolveFrom d (seg :: a) = some 0 := by
      constructor
      · exact fun hall a x b hab => hall (seg :: a) x b (by rw [hab]; rfl)
      · rintro hall (_ | ⟨y, a⟩) x b hab hx
        · exact absurd ((cons.inj hab).1 ▸ hx) hlong
        · obtain ⟨rfl, hrest⟩ := cons.inj hab
          exact hall a x b hrest hx
    rw [hsplit]
    simp only [hcons]
    by_cases hz : n = 0
    · simp [hz]
    · simp only [if_neg hz]
      exact ih (hmem.resolve_left hz)

section Tree

variable (h : Tree s) (hcwd : cwd ∈ s.dentries.live)

include h hcwd

theorem Tree.start_mem : (if path.head? = some slash then s.root else cwd) ∈ s.dentries.live := by
  split_ifs
  · exact h.root_mem
  · exact hcwd

/-- Paths are put together from their parts. -/
theorem resolution_compositional :
    (∀ p q n, p ≠ [] → q.head? ≠ some slash → n ≠ 0 → s.vfsResolvePath cwd p = some n →
      s.vfsResolvePath cwd (p ++ slash :: q) = s.vfsResolvePath n q) ∧
    (∀ p q, (p.head? = some slash ↔ q.head? = some slash) →
      (segments p).filter (· ≠ dot) = (segments q).filter (· ≠ dot) →
      s.vfsResolvePath cwd p = s.vfsResolvePath cwd q) ∧
    (∀ d ∈ s.dentries.live, s.vfsResolvePath d dotDot = some (s.dentries.get d).parent) ∧
      s.vfsResolvePath s.root dotDot = some s.root := by
  refine ⟨fun p q n hp hq hn hpn => ?_, fun p q hstart hsegs => ?_, ?_, ?_⟩
  · have hhead : (p ++ slash :: q).head? = p.head? := by
      cases p with
      | nil => exact absurd rfl hp
      | cons c p => rfl
    rw [vfsResolvePath_eq] at hpn
    rw [vfsResolvePath_eq, vfsResolvePath_eq, hhead, segments_append,
      resolveFrom_append (h.ne_zero (h.start_mem hcwd)), hpn, Option.bind_some, if_neg hn,
      if_neg hq]
  · rw [vfsResolvePath_eq, vfsResolvePath_eq, if_congr hstart rfl rfl,
      ← resolveFrom_filter (h.ne_zero (h.start_mem hcwd)), hsegs,
      resolveFrom_filter (h.ne_zero (h.start_mem hcwd))]
  · exact fun d hd => h.resolve_dotDot hd
  · rw [h.resolve_dotDot h.root_mem, h.root_parent]

/-- No buffer is left exactly if each segment that is too long stands behind a dead end and the
path of the parent fits. -/
theorem buffers_kept_iff :
    ((∃ r, s.vfsResolvePath cwd path = some r) ∧ ∃ r, s.resolveParentDir cwd path = some r) ↔
      (∀ a seg b, segments path = a ++ seg :: b → pathBuffer ≤ seg.length →
        s.resolveFrom (if path.head? = some slash then s.root else cwd) a = some 0) ∧
      (slash ∈ path → (parentDirname path).length < pathBuffer) := by
  rw [vfsResolvePath_eq]
  refine and_congr (h.resolveFrom_isSome_iff (h.start_mem hcwd)) ?_
  rw [State.resolveParentDir]
  by_cases hslash : slash ∈ path
  · simp only [hslash, not_true_eq_false, if_false, true_imp_iff]
    by_cases hfits : pathBuffer ≤ (parentDirname path).length
    · simp [hfits]
    · obtain ⟨r, hr, -⟩ := h.vfsLookup (.inr hcwd) (.inr (h.ne_zero hcwd)) fun seg hseg =>
        (length_le_of_mem_segments hseg).trans_lt (not_le.mp hfits)
      simp [hfits, hr, not_le.mp hfits]
  · simp [hslash]

end Tree

theorem dev_then_up : (boot true).vfsResolvePath 1 ([0x64, 0x65, 0x76] ++ slash :: dotDot) =
    (boot true).vfsResolvePath 2 dotDot :=
  (resolution_compositional (tree_boot true) (by decide)).1 _ _ 2 (by decide) (by decide)
    (by decide) (by decide +kernel)

theorem segment_behind_dead_end_kept :
    let path := slash :: 0x78 :: slash :: replicate 256 0x61
    (∃ r, (boot true).vfsResolvePath 1 path = some r) ∧
      ∃ r, (boot true).resolveParentDir 1 path = some r := by
  intro path
  have hpath : segments path = [[0x78], replicate 256 0x61] := by decide +kernel
  refine (buffers_kept_iff (tree_boot true) (by decide)).mpr ⟨fun a seg b hsegs hlong => ?_, ?_⟩
  · rw [hpath] at hsegs
    rcases a with _ | ⟨x, _ | ⟨y, a⟩⟩
    · obtain ⟨rfl, -⟩ := cons.inj hsegs
      exact absurd hlong (by decide)
    · obtain ⟨rfl, -⟩ := cons.inj hsegs
      decide +kernel
    · exact absurd (cons.inj (cons.inj hsegs).2).2 (by simp)
  · decide +kernel

theorem long_segment_written_outside :
    (boot true).vfsResolvePath 1 (replicate 256 0x61) = none := by decide +kernel

section Open

variable {s' : State} {t : ℕ} {task : Task} {flags : Word} {mem : Memory} {r : ℤ}

def Creates (s : State) (task : Task) (path : List Byte) (flags : Word) : Prop :=
  s.vfsLookup task.cwd path = some 0 ∧ has flags creat = true ∧ ∃ parent name,
    s.resolveParentDir task.cwd path = some (parent, name) ∧ parent ≠ 0 ∧ s.isDir parent = true

/-- The block of the `ramfs_inode_t` is not given back when another one is refused. -/
def LosesRam (s : State) (mem : Memory) : Prop :=
  mem.ram = true ∧ (s.dentries.fresh mem.dentry = 0 ∨ s.inodes.fresh mem.inode = 0)

/-- None of the first three blocks is granted, or all of them and no buffer. -/
def RefusedWhole (s : State) (mem : Memory) : Prop :=
  (s.dentries.fresh mem.dentry = 0 ∧ s.inodes.fresh mem.inode = 0 ∧ mem.ram = false) ∨
    s.dentries.fresh mem.dentry ≠ 0 ∧ s.inodes.fresh mem.inode ≠ 0 ∧ mem.ram = true ∧
      mem.data = false

theorem leak_eq_self_iff : s.leak (s.dentries.fresh mem.dentry) (s.inodes.fresh mem.inode) = s ↔
      s.dentries.fresh mem.dentry = 0 ∧ s.inodes.fresh mem.inode = 0 := by
  constructor
  · intro heq
    constructor
    · by_contra hne
      have hlive := congrArg (fun s => s.dentries.live) heq
      simp only [leak, if_neg hne] at hlive
      exact Cells.fresh_notMem hne (Finset.insert_eq_self.mp hlive)
    · by_contra hne
      have hlive := congrArg (fun s => s.inodes.live) heq
      simp only [leak, if_neg hne] at hlive
      exact Cells.fresh_notMem hne (Finset.insert_eq_self.mp hlive)
  · rintro ⟨hchild, hinode⟩
    rw [leak, if_pos hchild, if_pos hinode]

theorem findOrCreate_of_err (hcall : s.sysOpen t task path flags mem = some (vfsErr, s')) :
    ∃ d₀ d, s.vfsLookup task.cwd path = some d₀ ∧
      s.findOrCreate task path flags mem d₀ = some (d, s') := by
  obtain ⟨d₀, d, s₁, hlookup, hmade, ⟨-, -, rfl⟩ | ⟨-, hopen⟩⟩ := sysOpen_cases hcall
  · exact ⟨d₀, d, hlookup, hmade⟩
  · obtain ⟨-, rfl⟩ | ⟨fd, hfd, -⟩ := openDentry_cases hopen
    · exact ⟨d₀, d, hlookup, hmade⟩
    · exact absurd hfd (by rw [vfsErr]; omega)

/-- A failing open changes nothing exactly if no file is to be made or nothing of it is. -/
theorem failed_open_unchanged_iff (hcall : s.sysOpen t task path flags mem = some (vfsErr, s')) :
    s' = s ∧ ¬ (s.Creates task path flags ∧ s.LosesRam mem) ↔
      (s.Creates task path flags → s.RefusedWhole mem) := by
  obtain ⟨d₀, d, hlookup, hmade⟩ := findOrCreate_of_err hcall
  rw [findOrCreate] at hmade
  by_cases hcreates : s.Creates task path flags
  · simp only [hcreates, true_and, true_imp_iff, LosesRam, RefusedWhole]
    obtain ⟨hzero, hcreat, parent, name, hparent, hne, hdir⟩ := hcreates
    cases hlookup.symm.trans hzero
    simp only [openCreate, hcreat, hparent, hne, hdir, if_true, Bool.not_true, Bool.false_eq_true,
      if_false, or_self, Option.bind_eq_bind, Option.bind_some] at hmade
    rw [ramfsCreateFiles] at hmade
    split_ifs at hmade with hfail hdata hname
    · cases hmade
      rw [leak_eq_self_iff]
      rw [← Bool.not_eq_true] at hfail ⊢
      tauto
    · simp_all
    · cases hmade
      have hnew : s.dentries.fresh mem.dentry ≠ 0 := fun h => hfail (.inr (.inl h))
      refine iff_of_false (fun h => ?_) (by simp_all)
      have hlive := congrArg (fun s => s.dentries.live) h.1
      exact Cells.fresh_notMem hnew (Finset.insert_eq_self.mp hlive)
  · refine iff_of_true ⟨?_, fun h => hcreates h.1⟩ fun h => absurd h hcreates
    split_ifs at hmade with hzero
    · rcases openCreate_cases hmade with ⟨-, rfl⟩ | ⟨parent, name, hc, hparent, hne, hdir, -⟩
      · rfl
      · exact absurd ⟨hzero ▸ hlookup, hc, parent, name, hparent, hne, hdir⟩ hcreates
    · exact (Prod.mk.inj (Option.some.inj hmade)).2.symm

end Open

theorem refused_buffer_unchanged :
    let mem := { Memory.plenty 3 4 4 with data := false }
    (boot true).Creates ⟨fun _ => 0, 1⟩ [0x61] creat ∧
      (boot true).sysOpen 0 ⟨fun _ => 0, 1⟩ [0x61] creat mem = some (vfsErr, boot true) ∧
      ¬ (boot true).LosesRam mem := by
  intro mem
  have hnone : (boot true).vfsLookup 1 [0x61#8] = some 0 := by decide +kernel
  have hparent : (boot true).resolveParentDir 1 [0x61#8] = some (1, [0x61]) := by decide +kernel
  have hdir : (boot true).isDir 1 = true := by decide +kernel
  have hflags : has creat creat = true := by decide
  have hcreates : (boot true).Creates ⟨fun _ => 0, 1⟩ [0x61] creat :=
    ⟨hnone, hflags, 1, [0x61], hparent, by decide, hdir⟩
  have hmem : (boot true).dentries.fresh mem.dentry ≠ 0 ∧ (boot true).inodes.fresh mem.inode ≠ 0 ∧
      mem.ram = true ∧ mem.data = false := by decide +kernel
  have hcall : (boot true).sysOpen 0 ⟨fun _ => 0, 1⟩ [0x61] creat mem =
      some (vfsErr, boot true) := by
    simp [sysOpen, hnone, findOrCreate, openCreate, hflags, hparent, ramfsCreateFiles, hmem]
  exact ⟨hcreates, hcall, fun hloses =>
    ((failed_open_unchanged_iff hcall).mpr fun _ => .inr hmem).2 ⟨hcreates, hloses⟩⟩

theorem refused_open_creates :
    ((boot true).sysOpen 0 ⟨fun _ => 0, 1⟩ [0x61] creat (.plenty 3 4 0)).map
      (fun o => (o.1, o.2.dentries.live)) = some (vfsErr, {3, 1, 2}) ∧
      (boot true).dentries.live = {1, 2} := by decide +kernel

end State

end Aevros.Vfs
