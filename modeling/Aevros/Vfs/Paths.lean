import Aevros.Vfs.State

/-! # Paths

A path is resolved segment by segment, from the root or from the working directory. `none` is
a call that leaves its buffers or follows a null pointer; 0 is the `NULL` of a path that leads
nowhere.
-/

namespace Aevros.Vfs

open List

def slash : Byte := 0x2F

def dot : List Byte := [0x2E]

def dotDot : List Byte := [0x2E, 0x2E]

def segments (path : List Byte) : List (List Byte) :=
  (path.splitOn slash).filter fun seg => seg ≠ []

def skipSlash (p : List Byte) : List Byte := p.dropWhile (· = slash)

/-- The segments as the loop of `vfs_resolve_path` comes to them, one in a turn. -/
def scanSegments : ℕ → List Byte → List (List Byte)
  | 0, _ => []
  | fuel + 1, p =>
    let start := skipSlash p
    if start = [] then []
    else start.takeWhile (· ≠ slash) :: scanSegments fuel (start.dropWhile (· ≠ slash))

def matchSeg : List Byte → List Byte → Bool
  | [], [] => true
  | c :: name, c' :: seg => c = c' && matchSeg name seg
  | _, _ => false

/-- `dentry_hash`; a `char` is signed. -/
def dentryHash (name : List Byte) : Fin 32 :=
  Fin.ofNat 32 (name.foldl (fun hash c => hash * 31 + c.signExtend 32) (0 : Word)).toNat

def basename (path : List Byte) : List Byte := (path.reverse.takeWhile (· ≠ slash)).reverse

def parentDirname (path : List Byte) : List Byte :=
  let parent := (path.reverse.dropWhile (· ≠ slash)).tail.reverse
  if parent = [] then [slash] else parent

/-- The buffer for a segment or for the path of the parent. -/
def pathBuffer : ℕ := 256

namespace State

variable (s : State)

def isDir (d : ℕ) : Bool := has (s.inodes.get (s.dentries.get d).inode).flags vfsDir

def next (d : ℕ) : ℕ := (s.dentries.get d).hashNext

/-- A chain of dentries is not longer than this. -/
def fuel : ℕ := s.dentries.live.card + 1

def findChild (seg : List Byte) : ℕ → ℕ → Option ℕ
  | 0, _ => none
  | fuel + 1, child =>
    if child = 0 then some 0
    else match (s.dentries.get child).name with
      | none => none
      | some name =>
        if matchSeg name seg then some child else findChild seg fuel (s.next child)

def resolveFrom : ℕ → List (List Byte) → Option ℕ
  | dir, [] => some dir
  | dir, seg :: segs =>
    if dir = 0 ∨ pathBuffer ≤ seg.length then none
    else if matchSeg dot seg then resolveFrom dir segs
    else if matchSeg dotDot seg then
      let parent := (s.dentries.get dir).parent
      resolveFrom (if parent ≠ 0 then parent else dir) segs
    else if !s.isDir dir then some 0
    else match s.findChild seg s.fuel ((s.dentries.get dir).hashBucket (dentryHash seg)) with
      | none => none
      | some child => if child = 0 then some 0 else resolveFrom child segs

def vfsResolvePath (cwd : ℕ) (path : List Byte) : Option ℕ :=
  s.resolveFrom (if path.head? = some slash then s.root else cwd) (scanSegments path.length path)

def vfsFollowMount (d : ℕ) : ℕ :=
  if d = 0 then 0
  else if (s.dentries.get d).mount ≠ 0 then (s.dentries.get d).mount else d

def vfsLookup (cwd : ℕ) (path : List Byte) : Option ℕ :=
  (s.vfsResolvePath cwd path).map s.vfsFollowMount

/-- The directory for a new entry, and its name there. -/
def resolveParentDir (cwd : ℕ) (path : List Byte) : Option (ℕ × List Byte) :=
  if slash ∉ path then some (cwd, path)
  else
    let parentPath := parentDirname path
    if pathBuffer ≤ parentPath.length then none
    else (s.vfsLookup cwd parentPath).map fun parent => (parent, basename path)

end State

variable {path seg : List Byte}

theorem segments_append (p q : List Byte) :
    segments (p ++ slash :: q) = segments p ++ segments q := by
  rw [segments, splitOn_append_cons_self, filter_append]
  rfl

theorem segments_cons_slash (p : List Byte) : segments (slash :: p) = segments p :=
  segments_append [] p

theorem segments_skipSlash (p : List Byte) : segments (skipSlash p) = segments p := by
  induction p with
  | nil => rfl
  | cons c p ih =>
    by_cases hc : c = slash
    · rw [skipSlash, dropWhile_cons_of_pos (by simpa using hc), ← skipSlash, ih, hc,
        segments_cons_slash]
    · rw [skipSlash, dropWhile_cons_of_neg (by simpa using hc)]

theorem not_of_dropWhile_eq_cons {q : Byte → Bool} {c : Byte} {p rest : List Byte}
    (h : p.dropWhile q = c :: rest) : q c = false := by
  have hhead := head?_dropWhile_not q p
  rwa [h, head?_cons] at hhead

/-- A turn of the loop takes the leading segment off the path. -/
theorem segments_turn {c : Byte} (hc : c ≠ slash) (p : List Byte) : segments (c :: p) =
    (c :: p).takeWhile (· ≠ slash) :: segments ((c :: p).dropWhile (· ≠ slash)) := by
  have hseg : segments ((c :: p).takeWhile (· ≠ slash)) = [(c :: p).takeWhile (· ≠ slash)] := by
    have hfree : slash ∉ (c :: p).takeWhile (· ≠ slash) := fun h => by
      simpa using all_eq_true.mp all_takeWhile _ h
    rw [segments, splitOn_eq_singleton hfree]
    simp [hc]
  nth_rewrite 1 [← takeWhile_append_dropWhile (p := (· ≠ slash)) (l := c :: p)]
  cases hrest : (c :: p).dropWhile (· ≠ slash) with
  | nil =>
    rw [append_nil, hseg]
    rfl
  | cons d rest =>
    obtain rfl : d = slash := by simpa using not_of_dropWhile_eq_cons hrest
    rw [segments_append, hseg, segments_cons_slash, singleton_append]

theorem scanSegments_eq {fuel : ℕ} {p : List Byte} (h : p.length ≤ fuel) :
    scanSegments fuel p = segments p := by
  induction fuel generalizing p with
  | zero =>
    obtain rfl := length_eq_zero_iff.mp (Nat.le_zero.mp h)
    rfl
  | succ fuel ih =>
    rw [scanSegments, ← segments_skipSlash p]
    have hle : (skipSlash p).length ≤ p.length := (dropWhile_sublist _).length_le
    cases hstart : skipSlash p with
    | nil => rfl
    | cons c start =>
      have hc : c ≠ slash := by simpa using not_of_dropWhile_eq_cons hstart
      have hless : ((c :: start).dropWhile (· ≠ slash)).length ≤ start.length := by
        rw [dropWhile_cons_of_pos (by simpa using hc)]
        exact (dropWhile_sublist _).length_le
      rw [hstart, length_cons] at hle
      rw [if_neg (cons_ne_nil _ _), segments_turn hc, ih (by omega)]

namespace State

variable {s : State} {d cwd : ℕ}

theorem vfsResolvePath_eq : s.vfsResolvePath cwd path =
    s.resolveFrom (if path.head? = some slash then s.root else cwd) (segments path) := by
  rw [vfsResolvePath, scanSegments_eq le_rfl]

theorem resolveFrom_singleton : s.resolveFrom d [seg] =
    if d = 0 ∨ pathBuffer ≤ seg.length then none
    else if matchSeg dot seg then some d
    else if matchSeg dotDot seg then
      some (if (s.dentries.get d).parent ≠ 0 then (s.dentries.get d).parent else d)
    else if !s.isDir d then some 0
    else s.findChild seg s.fuel ((s.dentries.get d).hashBucket (dentryHash seg)) := by
  simp only [resolveFrom]
  cases s.findChild seg s.fuel ((s.dentries.get d).hashBucket (dentryHash seg)) with
  | none => rfl
  | some child => by_cases hchild : child = 0 <;> simp [hchild]

theorem resolveFrom_cons (seg : List Byte) (segs : List (List Byte)) :
    s.resolveFrom d (seg :: segs) =
    (s.resolveFrom d [seg]).bind fun n => if n = 0 then some 0 else s.resolveFrom n segs := by
  rw [resolveFrom_singleton, resolveFrom]
  dsimp only
  split_ifs with hlong hdot hdots hparent
  · rfl
  · exact (if_neg fun hd => hlong (.inl hd)).symm
  · exact (if_neg hparent).symm
  · exact (if_neg fun hd => hlong (.inl hd)).symm
  · rfl
  · cases s.findChild seg s.fuel ((s.dentries.get d).hashBucket (dentryHash seg)) <;> rfl

end State

theorem length_le_of_mem_segments (h : seg ∈ segments path) :
    seg.length ≤ path.length := by
  obtain ⟨i, hi⟩ := mem_iff_getElem?.mp (mem_filter.mp h).1
  have hmem : seg ∈ (path.splitOn slash).intersperse [slash] :=
    mem_of_getElem? (getElem?_intersperse_two_mul.trans hi)
  have hle := (sublist_flatten_of_mem hmem).length_le
  rwa [← intercalate, intercalate_splitOn] at hle

theorem head_parentDirname (h : path.head? = some slash) :
    (parentDirname path).head? = some slash := by
  rw [parentDirname]
  split_ifs with hnil
  · rfl
  · have hprefix : (path.reverse.dropWhile (· ≠ slash)).tail.reverse <+: path := by
      rw [← reverse_suffix, reverse_reverse]
      exact (tail_suffix _).trans (dropWhile_suffix _)
    rw [head?_eq_some_head hnil, hprefix.head hnil, ← h, head?_eq_some_head]

end Aevros.Vfs
