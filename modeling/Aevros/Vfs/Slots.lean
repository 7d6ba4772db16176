import Aevros.Vfs.Tasks

/-! # Descriptors

How the table of all descriptors changes when one is set, when a task is added and when one
exits; and what the loop over the table of a task comes to.
-/

namespace Aevros.Vfs

open Finset Tasks Holders Function

namespace Tasks

variable {ts : Tasks} {t u : ℕ} {fd : Fin 32} {p : ℕ} {task : Task} {x : ℕ × Fin 32}

theorem get_modify {f : Task → Task} :
    (ts.modify t f).get u = if u = t then (ts.get t).map f else ts.get u := by
  split_ifs with hu
  · rw [hu]
    exact update_self ..
  · exact update_of_ne hu ..

theorem get_modify_self {f : Task → Task} (h : ts.get t = some task) :
    (ts.modify t f).get t = some (f task) := by
  rw [get_modify, if_pos rfl, h, Option.map_some]

theorem get_setFd (h : (ts.modify t fun task => task.setFd fd p).get u = some task) :
    ∃ task', ts.get u = some task' ∧ task.cwd = task'.cwd := by
  rw [get_modify] at h
  split_ifs at h with hu
  · obtain ⟨task', htask, rfl⟩ := Option.map_eq_some_iff.mp h
    exact ⟨task', hu ▸ htask, rfl⟩
  · exact ⟨task, h, rfl⟩

@[simp] theorem get_add_self : (ts.add task).get ts.count = some task := update_self ..

theorem get_add_of_ne (hu : u ≠ ts.count) : (ts.add task).get u = ts.get u :=
  update_of_ne hu ..

@[simp] theorem get_remove_self : (ts.remove t).get t = none := update_self ..

theorem get_remove_of_ne (hu : u ≠ t) : (ts.remove t).get u = ts.get u :=
  update_of_ne hu ..

theorem slot_of_get (h : ts.get t = some task) : ts.slot (t, fd) = task.fdTable fd := by
  rw [slot, h]
  rfl

theorem lt_of_get (h : ts.get t = some task) : t < ts.count := by
  by_contra hle
  rw [ts.bound t (Nat.le_of_not_lt hle)] at h
  cases h

theorem mem_slots : x ∈ ts.slots ↔ x.1 < ts.count := by
  rw [slots, mem_product, mem_range, and_iff_left (mem_univ _)]

theorem mem_slots_of_ne_zero (h : ts.slot x ≠ 0) : x ∈ ts.slots := by
  rw [mem_slots]
  by_contra hle
  rw [slot, ts.bound x.1 (Nat.le_of_not_lt hle)] at h
  exact h rfl

theorem slot_setFd (h : ts.get t = some task) (fd : Fin 32) (p : ℕ) :
    (ts.modify t fun task => task.setFd fd p).slot = update ts.slot (t, fd) p := by
  funext x
  obtain ⟨u, k⟩ := x
  rw [slot, get_modify]
  by_cases hu : u = t
  · subst hu
    rw [if_pos rfl, h]
    by_cases hk : k = fd
    · rw [hk, update_self]
      exact update_self ..
    · rw [update_of_ne fun heq => hk (Prod.mk.inj heq).2, slot_of_get h]
      exact update_of_ne hk ..
  · rw [if_neg hu, update_of_ne fun heq => hu (Prod.mk.inj heq).1]
    rfl

theorem slot_setCwd (cwd : ℕ) :
    (ts.modify t fun task => { task with cwd := cwd }).slot = ts.slot := by
  funext x
  obtain ⟨u, k⟩ := x
  rw [slot, get_modify, slot]
  split_ifs with hu
  · rw [hu, Option.map_map]
    rfl
  · rfl

theorem slot_remove : (ts.remove t).slot x = if x.1 = t then 0 else ts.slot x := by
  rw [slot]
  split_ifs with hu
  · rw [hu, get_remove_self]
    rfl
  · rw [get_remove_of_ne hu, slot]

theorem eq_of_get {ts' : Tasks} (hget : ts'.get = ts.get) (hcount : ts'.count = ts.count) :
    ts' = ts := by
  cases ts'
  congr

theorem setFd_clear (h : ts.get t = some task) (hfd : task.fdTable fd = 0) (p : ℕ) :
    (ts.modify t fun task => task.setFd fd p).modify t (fun task => task.setFd fd 0) = ts := by
  refine eq_of_get (funext fun u => ?_) rfl
  rw [get_modify, get_modify, get_modify]
  by_cases hu : u = t
  · rw [if_pos hu, if_pos rfl, hu, h, Option.map_some, Option.map_some]
    rw [Task.setFd, Task.setFd, update_idem, ← hfd, update_eq_self]
  · rw [if_neg hu, if_neg hu]

/-- The descriptors of a new task. -/
def newSlots (ts : Tasks) : Finset (ℕ × Fin 32) := {ts.count} ×ˢ univ

theorem slots_add : (ts.add task).slots = ts.slots ∪ ts.newSlots := by
  rw [slots, slots, newSlots, ← union_product]
  refine congrArg (· ×ˢ univ) ?_
  change range (ts.count + 1) = _
  rw [range_add_one, insert_eq, union_comm]

theorem disjoint_newSlots : Disjoint ts.slots ts.newSlots := by
  refine disjoint_left.mpr fun x hx hnew => ?_
  rw [newSlots, mem_product, mem_singleton] at hnew
  rw [mem_slots] at hx
  omega

end Tasks

section FinRange

variable {n : ℕ} {P : Fin n → Prop} [DecidablePred P]

theorem countP_finRange : (List.finRange n).countP (fun i => P i) = (univ.filter P).card := by
  have hnodup := (List.nodup_finRange n).filter fun i => decide (P i)
  rw [List.countP_eq_length_filter, ← List.toFinset_card_of_nodup hnodup]
  simp

end FinRange

theorem card_holders_newSlots (ts : Tasks) (g : ℕ × Fin 32 → Option ℕ) (k : ℕ) :
    (holders ts.newSlots g k).card =
      (List.finRange 32).countP fun i => g (ts.count, i) = some k := by
  rw [countP_finRange, holders, Tasks.newSlots, singleton_product, filter_map, card_map]
  rfl

namespace State

variable {s s' : State} {t p : ℕ} {task : Task} {fd : Fin 32} {file : File} {path : List Byte}
  {flags : Word} {mem : Memory} {r : ℤ} {x : ℕ × Fin 32}

theorem fileOf_eq_some : s.fileOf x = some p ↔ s.tasks.slot x = p ∧ p ≠ 0 := by
  rw [fileOf]
  split_ifs with hz
  · exact iff_of_false nofun fun h => h.2 (h.1.symm.trans hz)
  · rw [Option.some.injEq]
    exact ⟨fun h => ⟨h, h ▸ hz⟩, fun h => h.1⟩

theorem mem_fileSlots (hp : p ≠ 0) : x ∈ s.fileSlots p ↔ s.tasks.slot x = p := by
  rw [fileSlots, mem_holders, fileOf_eq_some, and_iff_left hp]
  exact and_iff_right_of_imp fun h => mem_slots_of_ne_zero (h ▸ hp)

theorem fileOf_setFd (h : s.tasks.get t = some task)
    (htasks : s'.tasks = s.tasks.modify t fun task => task.setFd fd p) :
    s'.fileOf = update s.fileOf (t, fd) (if p = 0 then none else some p) := by
  funext x
  rw [fileOf, htasks, slot_setFd h]
  by_cases hx : x = (t, fd)
  · rw [hx, update_self, update_self]
  · rw [update_of_ne hx, update_of_ne hx, fileOf]

theorem mem_slots_of_get (h : s.tasks.get t = some task) (fd : Fin 32) : (t, fd) ∈ s.tasks.slots :=
  mem_slots.mpr (lt_of_get h)

theorem findOrCreate_files {d d₀ : ℕ} (h : s.findOrCreate task path flags mem d₀ = some (d, s')) :
    s'.files = s.files ∧ s'.tasks = s.tasks := by
  rw [findOrCreate] at h
  split_ifs at h with hd
  · rcases openCreate_cases h with ⟨-, rfl⟩ | ⟨parent, name, -, -, -, -, hmade⟩
    · exact ⟨rfl, rfl⟩
    · rcases ramfsCreateFiles_cases hmade with ⟨-, rfl | ⟨rfl, -⟩⟩ | ⟨-, -, -, rfl⟩
      · exact ⟨rfl, rfl⟩
      · exact ⟨rfl, rfl⟩
      · exact ⟨rfl, rfl⟩
  · cases h
    exact ⟨rfl, rfl⟩

end State

namespace State

variable {s : State} {t p q : ℕ} {fd : Fin 32}

theorem files_closeSlot : (s.closeSlot t fd p).files =
    if 1 < (s.files.get p).refCount then s.files.modify p File.dropRef else s.files.free p := rfl

theorem mem_live_closeSlot : q ∈ (s.closeSlot t fd p).files.live ↔
    q ∈ s.files.live ∧ (q = p → 1 < (s.files.get p).refCount) := by
  rw [files_closeSlot]
  split_ifs with hmore
  · exact (and_iff_left fun _ => hmore).symm
  · rw [Cells.live_free, mem_erase]
    exact ⟨fun h => ⟨h.2, fun heq => absurd heq h.1⟩, fun h => ⟨fun heq => hmore (h.2 heq), h.1⟩⟩

theorem refCount_closeSlot (hq : q ∈ (s.closeSlot t fd p).files.live) :
    ((s.closeSlot t fd p).files.get q).refCount =
      (s.files.get q).refCount - if p = q then 1 else 0 := by
  have hmore := (mem_live_closeSlot.mp hq).2
  rw [files_closeSlot]
  by_cases hqp : p = q
  · subst hqp
    rw [if_pos rfl, if_pos (hmore rfl), Cells.get_modify_self, File.dropRef]
  · rw [if_neg hqp, Nat.sub_zero]
    split_ifs
    · rw [Cells.get_modify_of_ne (Ne.symm hqp)]
    · rfl

theorem slot_closeSlot {task : Task} (htask : s.tasks.get t = some task) (fd : Fin 32) (p : ℕ)
    (x : ℕ × Fin 32) :
    (s.closeSlot t fd p).tasks.slot x = if x = (t, fd) then 0 else s.tasks.slot x := by
  change (s.tasks.modify t fun task => task.setFd fd 0).slot x = _
  rw [slot_setFd htask]
  by_cases hx : x = (t, fd)
  · rw [hx, update_self, if_pos rfl]
  · rw [update_of_ne hx, if_neg hx]

theorem get_closeSlot_field {β : Type*} {g : File → β} (hg : ∀ file : File, g file.dropRef = g file)
    (q : ℕ) : g ((s.closeSlot t fd p).files.get q) = g (s.files.get q) := by
  rw [files_closeSlot]
  split_ifs
  · exact Cells.get_modify_field hg q
  · rfl

theorem inode_closeSlot_field {β : Type*} {g : Inode → β}
    (hg : ∀ inode : Inode, g inode.dropRef = g inode) (q : ℕ) :
    g ((s.closeSlot t fd p).inodes.get q) = g (s.inodes.get q) := by
  rw [closeSlot]
  dsimp only
  split_ifs
  · rfl
  · exact Cells.get_modify_field hg q

theorem inodes_live_closeSlot : (s.closeSlot t fd p).inodes.live = s.inodes.live := by
  rw [closeSlot]
  split_ifs <;> rfl

section Install

variable {task : Task} {file : File}

theorem card_fileSlots_install (htask : s.tasks.get t = some task) (hfd : task.fdTable fd = 0)
    (hp : p ≠ 0) (q : ℕ) : ((s.install t fd p file).fileSlots q).card =
      (s.fileSlots q).card + if p = q then 1 else 0 := by
  have hslot : s.fileOf (t, fd) = none := by rw [fileOf, slot_of_get htask, if_pos hfd]
  have hset : (s.install t fd p file).fileOf = _ := fileOf_setFd htask rfl
  have hcard := card_holders_update (g := s.fileOf) (mem_slots_of_get htask fd) (some p) q
  rw [if_neg hp] at hset
  rw [hslot] at hcard
  rw [fileSlots, hset]
  refine hcard.trans (congrArg _ ?_)
  simp

theorem held_install (htask : s.tasks.get t = some task)
    (hheld : ∀ x, s.tasks.slot x ≠ 0 → s.tasks.slot x ∈ s.files.live) (x : ℕ × Fin 32)
    (hx : (s.install t fd p file).tasks.slot x ≠ 0) :
    (s.install t fd p file).tasks.slot x ∈ (s.install t fd p file).files.live := by
  have hset : (s.install t fd p file).tasks.slot = update s.tasks.slot (t, fd) p :=
    slot_setFd htask fd p
  rw [hset] at hx ⊢
  by_cases hxt : x = (t, fd)
  · rw [hxt, update_self]
    exact mem_insert_self ..
  · rw [update_of_ne hxt] at hx ⊢
    exact mem_insert_of_mem (hheld x hx)

end Install

section Close

variable {task : Task} (htask : s.tasks.get t = some task) (hslot : s.tasks.slot (t, fd) = p)
  (hp : p ≠ 0)

include htask hslot hp

theorem card_fileSlots_closeSlot (q : ℕ) :
    ((s.closeSlot t fd p).fileSlots q).card + (if p = q then 1 else 0) = (s.fileSlots q).card := by
  have hof : s.fileOf (t, fd) = some p := fileOf_eq_some.mpr ⟨hslot, hp⟩
  have hset : (s.closeSlot t fd p).fileOf = _ := fileOf_setFd htask rfl
  have hcard := card_holders_update (g := s.fileOf) (mem_slots_of_get htask fd) none q
  rw [hof, if_neg (by simp : ¬ none = some q), Nat.add_zero] at hcard
  rw [fileSlots, hset, fileSlots, ← hcard]
  simp only [Option.some.injEq]
  rfl

theorem card_le_refCount_closeSlot {q : ℕ} (hq : (s.fileSlots q).card ≤ (s.files.get q).refCount) :
    ((s.closeSlot t fd p).fileSlots q).card ≤ ((s.closeSlot t fd p).files.get q).refCount := by
  have hcard := card_fileSlots_closeSlot htask hslot hp q
  have hrefs : (s.files.get q).refCount - (if p = q then 1 else 0) ≤
      ((s.closeSlot t fd p).files.get q).refCount := by
    rw [files_closeSlot]
    by_cases hqp : p = q
    · rw [if_pos hqp, hqp]
      split_ifs
      · rw [Cells.get_modify_self]
        exact Nat.le_refl _
      · exact Nat.sub_le ..
    · rw [if_neg hqp, Nat.sub_zero]
      split_ifs
      · rw [Cells.get_modify_of_ne (Ne.symm hqp)]
      · exact Nat.le_refl _
  omega

theorem held_closeSlot (hheld : ∀ x, s.tasks.slot x ≠ 0 → s.tasks.slot x ∈ s.files.live)
    (hle : (s.fileSlots p).card ≤ (s.files.get p).refCount) (x : ℕ × Fin 32)
    (hx : (s.closeSlot t fd p).tasks.slot x ≠ 0) :
    (s.closeSlot t fd p).tasks.slot x ∈ (s.closeSlot t fd p).files.live := by
  rw [slot_closeSlot htask] at hx ⊢
  rw [mem_live_closeSlot]
  split_ifs at hx ⊢ with hxt
  · exact absurd rfl hx
  · refine ⟨hheld x hx, fun heq => ?_⟩
    -- two descriptors refer to the file
    have htwo : 1 < (s.fileSlots p).card := one_lt_card.mpr
      ⟨x, (mem_fileSlots hp).mpr heq, (t, fd), (mem_fileSlots hp).mpr hslot, hxt⟩
    omega

end Close

end State

namespace State

variable {s : State} {c : Copying} {fds : Fin 32 → ℕ} {l : List (Fin 32)}
  {st : State × (Fin 32 → ℕ)}

def Takes (s : State) (c : Copying) (fds : Fin 32 → ℕ) (i : Fin 32) : Prop :=
  fds i ≠ 0 ∧ c.takes i (s.files.get (fds i)) = true

instance (i : Fin 32) : Decidable (s.Takes c fds i) := inferInstanceAs (Decidable (_ ∧ _))

/-- What the loop has done after the turns `l`. -/
structure Copied (s : State) (c : Copying) (fds : Fin 32 → ℕ) (l : List (Fin 32))
    (st : State × (Fin 32 → ℕ)) : Prop where
  dentries : st.1.dentries = s.dentries
  root : st.1.root = s.root
  tasks : st.1.tasks = s.tasks
  files_live : st.1.files.live = s.files.live
  inodes_live : st.1.inodes.live = s.inodes.live
  takes : ∀ i p, c.takes i (st.1.files.get p) = c.takes i (s.files.get p)
  inode : ∀ p, (st.1.files.get p).inode = (s.files.get p).inode
  dentry : ∀ p, (st.1.files.get p).dentry = (s.files.get p).dentry
  file_refs : ∀ p, (st.1.files.get p).refCount = (s.files.get p).refCount +
    c.fileRefs * l.countP fun i => s.Takes c fds i ∧ fds i = p
  inode_refs : ∀ q, (st.1.inodes.get q).refCount = (s.inodes.get q).refCount +
    if c.counts q then l.countP fun i => s.Takes c fds i ∧ (s.files.get (fds i)).inode = q else 0
  table : ∀ i, st.2 i = if i ∈ l ∧ s.Takes c fds i then fds i else 0

theorem Copied.nil : Copied s c fds [] (s, fun _ => 0) where
  dentries := rfl
  root := rfl
  tasks := rfl
  files_live := rfl
  inodes_live := rfl
  takes _ _ := rfl
  inode _ := rfl
  dentry _ := rfl
  file_refs _ := rfl
  inode_refs _ := by rw [List.countP_nil, ite_self, Nat.add_zero]
  table _ := (if_neg fun h => List.not_mem_nil h.1).symm

theorem countP_concat {P : Fin 32 → Prop} [DecidablePred P] (l : List (Fin 32)) (i : Fin 32) :
    (l ++ [i]).countP (fun i => P i) = l.countP (fun i => P i) + if P i then 1 else 0 := by
  rw [List.countP_append, List.countP_singleton]
  simp only [decide_eq_true_eq]

section

variable (h : Copied s c fds l st)

include h

theorem Copied.skip {i : Fin 32} (hi : ¬ s.Takes c fds i) : Copied s c fds (l ++ [i]) st := { h with
  file_refs p := by rw [countP_concat, if_neg fun hand => hi hand.1, Nat.add_zero, h.file_refs]
  inode_refs q := by
    have hnot : ¬ (s.Takes c fds i ∧ (s.files.get (fds i)).inode = q) := fun hand => hi hand.1
    rw [countP_concat, if_neg hnot, Nat.add_zero, h.inode_refs]
  table j := by
    rw [h.table]
    refine if_congr (and_congr_left fun hj => ?_) rfl rfl
    have hne : j ≠ i := fun heq => hi (heq ▸ hj)
    simp [hne] }

theorem Copied.turn {i : Fin 32} (hi : s.Takes c fds i) : Copied s c fds (l ++ [i]) ({ st.1 with
          files := st.1.files.modify (fds i) (c.mark i)
          inodes := if c.counts (s.files.get (fds i)).inode then
            st.1.inodes.modify (s.files.get (fds i)).inode Inode.addRef else st.1.inodes },
        update st.2 i (fds i)) := { h with
  inodes_live := by
    split
    · exact h.inodes_live
    · exact h.inodes_live
  takes j p := (Cells.get_modify_field (c.takes_mark j i) p).trans (h.takes j p)
  inode p := (Cells.get_modify_field (c.inode_mark i) p).trans (h.inode p)
  dentry p := (Cells.get_modify_field (c.dentry_mark i) p).trans (h.dentry p)
  file_refs p := by
    change (((st.1.files.modify (fds i) (c.mark i)).get p).refCount) = _
    rw [countP_concat]
    by_cases hp : fds i = p
    · rw [if_pos ⟨hi, hp⟩, ← hp, Cells.get_modify_self, c.refCount_mark, h.file_refs]
      ring
    · rw [if_neg fun hand => hp hand.2, Cells.get_modify_of_ne (Ne.symm hp), h.file_refs,
        Nat.add_zero]
  inode_refs q := by
    rw [countP_concat]
    by_cases hq : (s.files.get (fds i)).inode = q
    · have hand : s.Takes c fds i ∧ (s.files.get (fds i)).inode = q := ⟨hi, hq⟩
      rw [if_pos hand, hq]
      by_cases hc : c.counts q = true
      · rw [if_pos hc, if_pos hc, Cells.get_modify_self, Inode.addRef, h.inode_refs, if_pos hc]
        rfl
      · rw [if_neg hc, if_neg hc, h.inode_refs, if_neg hc]
    · have hnot : ¬ (s.Takes c fds i ∧ (s.files.get (fds i)).inode = q) := fun hand => hq hand.2
      rw [if_neg hnot, Nat.add_zero, ← h.inode_refs q]
      split
      · rw [Cells.get_modify_of_ne (Ne.symm hq)]
      · rfl
  table j := by
    change update st.2 i (fds i) j = _
    by_cases hj : j = i
    · rw [hj, update_self, if_pos ⟨by simp, hi⟩]
    · rw [update_of_ne hj, h.table]
      simp [hj] }

theorem Copied.copyFd (i : Fin 32) : Copied s c fds (l ++ [i]) (copyFd c fds st i) := by
  rw [State.copyFd, h.takes, h.inode]
  split_ifs with hz ht
  · exact h.skip fun hi => hi.1 hz
  · exact h.skip fun hi => by simp [hi.2] at ht
  · exact h.turn ⟨hz, by simpa using ht⟩

end

theorem copied_copyFds (s : State) (c : Copying) (fds : Fin 32 → ℕ) :
    Copied s c fds (List.finRange 32) (s.copyFds c fds) := by
  have hall : ∀ l, Copied s c fds l (l.foldl (State.copyFd c fds) (s, fun _ => 0)) := by
    intro l
    induction l using List.reverseRecOn with
    | nil => exact .nil
    | append_singleton l i ih =>
      rw [List.foldl_concat]
      exact ih.copyFd i
  exact hall _

section Spawn

variable (s) (c) (task : Task) (cwd : ℕ)

def inherited (fds : Fin 32 → ℕ) (i : Fin 32) : ℕ := if s.Takes c fds i then fds i else 0

theorem tasks_spawn : (s.spawn c task cwd).tasks =
    s.tasks.add { fdTable := s.inherited c task.fdTable, cwd := cwd } := by
  have h := copied_copyFds s c task.fdTable
  have htable : (s.copyFds c task.fdTable).2 = s.inherited c task.fdTable := by
    funext i
    rw [h.table]
    exact if_congr (and_iff_right (List.mem_finRange i)) rfl rfl
  rw [← htable, ← h.tasks]
  rfl

theorem dentries_spawn : (s.spawn c task cwd).dentries = s.dentries :=
  (copied_copyFds s c task.fdTable).dentries

theorem files_live_spawn : (s.spawn c task cwd).files.live = s.files.live :=
  (copied_copyFds s c task.fdTable).files_live

theorem inodes_live_spawn : (s.spawn c task cwd).inodes.live = s.inodes.live :=
  (copied_copyFds s c task.fdTable).inodes_live

theorem inode_spawn (p : ℕ) : ((s.spawn c task cwd).files.get p).inode = (s.files.get p).inode :=
  (copied_copyFds s c task.fdTable).inode p

theorem dentry_spawn (p : ℕ) : ((s.spawn c task cwd).files.get p).dentry = (s.files.get p).dentry :=
  (copied_copyFds s c task.fdTable).dentry p

theorem slot_spawn_of_mem (hx : x ∈ s.tasks.slots) :
    (s.spawn c task cwd).tasks.slot x = s.tasks.slot x := by
  rw [tasks_spawn, slot, get_add_of_ne (mem_slots.mp hx).ne, slot]

theorem slot_spawn_new (i : Fin 32) :
    (s.spawn c task cwd).tasks.slot (s.tasks.count, i) = s.inherited c task.fdTable i := by
  rw [tasks_spawn, slot, get_add_self]
  rfl

theorem slots_spawn : (s.spawn c task cwd).tasks.slots = s.tasks.slots ∪ s.tasks.newSlots := by
  rw [tasks_spawn, slots_add]

theorem slot_spawn_cases (hx : (s.spawn c task cwd).tasks.slot x ≠ 0) :
    x ∈ s.tasks.slots ∧ (s.spawn c task cwd).tasks.slot x = s.tasks.slot x ∨
      ∃ i, x = (s.tasks.count, i) ∧ s.Takes c task.fdTable i ∧
        (s.spawn c task cwd).tasks.slot x = task.fdTable i := by
  have hmem := mem_slots_of_ne_zero hx
  rw [slots_spawn, mem_union] at hmem
  rcases hmem with hold | hnew
  · exact .inl ⟨hold, slot_spawn_of_mem s c task cwd hold⟩
  · rw [Tasks.newSlots, mem_product, mem_singleton] at hnew
    obtain ⟨u, i⟩ := x
    obtain rfl : u = s.tasks.count := hnew.1
    rw [slot_spawn_new, inherited] at hx ⊢
    split_ifs at hx ⊢ with htakes
    · exact .inr ⟨i, rfl, htakes, rfl⟩
    · exact absurd rfl hx

theorem held_spawn {t : ℕ} (htask : s.tasks.get t = some task)
    (hheld : ∀ x, s.tasks.slot x ≠ 0 → s.tasks.slot x ∈ s.files.live) (x : ℕ × Fin 32)
    (hx : (s.spawn c task cwd).tasks.slot x ≠ 0) :
    (s.spawn c task cwd).tasks.slot x ∈ (s.spawn c task cwd).files.live := by
  rw [files_live_spawn]
  rcases slot_spawn_cases s c task cwd hx with ⟨-, heq⟩ | ⟨i, -, htakes, heq⟩
  · rw [heq] at hx ⊢
    exact hheld x hx
  · rw [heq, ← slot_of_get htask]
    refine hheld _ ?_
    rw [slot_of_get htask]
    exact htakes.1

theorem fileOf_spawn_of_mem (hx : x ∈ s.tasks.slots) :
    (s.spawn c task cwd).fileOf x = s.fileOf x := by
  rw [fileOf, slot_spawn_of_mem s c task cwd hx, fileOf]

theorem fileOf_spawn_new (i : Fin 32) : (s.spawn c task cwd).fileOf (s.tasks.count, i) =
    if s.Takes c task.fdTable i then some (task.fdTable i) else none := by
  rw [fileOf, slot_spawn_new, inherited]
  by_cases htakes : s.Takes c task.fdTable i
  · rw [if_pos htakes, if_pos htakes, if_neg htakes.1]
  · rw [if_neg htakes, if_neg htakes, if_pos rfl]

theorem card_fileSlots_spawn (p : ℕ) : ((s.spawn c task cwd).fileSlots p).card =
    (s.fileSlots p).card +
      (List.finRange 32).countP fun i => s.Takes c task.fdTable i ∧ task.fdTable i = p := by
  rw [fileSlots, slots_spawn, card_holders_union disjoint_newSlots
    fun x hx => fileOf_spawn_of_mem s c task cwd hx, card_holders_newSlots]
  refine congrArg₂ _ rfl (List.countP_congr fun i _ => ?_)
  rw [fileOf_spawn_new, decide_eq_true_iff, decide_eq_true_iff]
  split_ifs with htakes
  · rw [Option.some.injEq, and_iff_right htakes]
  · exact iff_of_false nofun fun h => htakes h.1

theorem card_inodeSlots_spawn (q : ℕ) : ((s.spawn c task cwd).inodeSlots q).card =
    (s.inodeSlots q).card + (List.finRange 32).countP fun i =>
      s.Takes c task.fdTable i ∧ (s.files.get (task.fdTable i)).inode = q := by
  have hold : ∀ x ∈ s.tasks.slots, (s.spawn c task cwd).inodeOf x = s.inodeOf x := by
    intro x hx
    rw [inodeOf, fileOf_spawn_of_mem s c task cwd hx]
    exact Option.map_congr fun p _ => inode_spawn s c task cwd p
  rw [inodeSlots, slots_spawn, card_holders_union disjoint_newSlots hold, card_holders_newSlots]
  refine congrArg₂ _ rfl (List.countP_congr fun i _ => ?_)
  rw [inodeOf, fileOf_spawn_new, decide_eq_true_iff, decide_eq_true_iff]
  split_ifs with htakes
  · rw [Option.map_some, inode_spawn, Option.some.injEq, and_iff_right htakes]
  · exact iff_of_false nofun fun h => htakes h.1

end Spawn

end State

namespace State

variable {s s' : State} {t : ℕ} {task : Task} {path : List Byte} {flags : Word} {mem : Memory}
  {r : ℤ}

theorem viaFile_cases {b : Bool} (hcall : s.viaFile t task path mem = some (b, s')) :
    ∃ r s₂, s.sysOpen t task path readOnly mem = some (r, s₂) ∧
      (r < 0 ∧ s' = s₂ ∨ 0 ≤ r ∧ s' = (s₂.sysClose t r).2) := by
  rw [State.viaFile] at hcall
  simp only [Option.bind_eq_bind] at hcall
  obtain ⟨⟨r, s₂⟩, hopened, hcall⟩ := Option.bind_eq_some_iff.mp hcall
  refine ⟨r, s₂, hopened, ?_⟩
  split_ifs at hcall with hr
  · exact .inl ⟨hr, (Prod.mk.inj (Option.some.inj hcall)).2.symm⟩
  · exact .inr ⟨not_lt.mp hr, (Prod.mk.inj (Option.some.inj hcall)).2.symm⟩

theorem fdOf_val (fd : Fin 32) : fdOf (fd.val : ℤ) = some fd := by
  rw [fdOf]
  simp

section

variable (htask : s.tasks.get t = some task)

include htask

theorem get_sysOpen (hcall : s.sysOpen t task path flags mem = some (r, s')) :
    ∃ task', s'.tasks.get t = some task' := by
  obtain ⟨d₀, d, s₁, -, hmade, hrest⟩ := sysOpen_cases hcall
  obtain ⟨-, htasks⟩ := findOrCreate_files hmade
  rw [← htasks] at htask
  rcases hrest with ⟨-, -, rfl⟩ | ⟨-, hopen⟩
  · exact ⟨_, htask⟩
  · rcases openDentry_cases hopen with ⟨-, rfl⟩ | ⟨fd, -, -, -, rfl⟩
    · exact ⟨_, htask⟩
    · exact ⟨_, get_modify_self htask⟩

theorem tasks_viaFile {b : Bool} (hcall : s.viaFile t task path mem = some (b, s')) :
    s'.tasks = s.tasks := by
  obtain ⟨r, s₂, hopened, hrest⟩ := viaFile_cases hcall
  obtain ⟨d₀, d, s₁, -, hmade, hopen⟩ := sysOpen_cases hopened
  obtain ⟨-, htasks⟩ := findOrCreate_files hmade
  have hfail : r = vfsErr → s₂.tasks = s.tasks → s'.tasks = s.tasks := by
    rintro rfl heq
    rcases hrest with ⟨-, rfl⟩ | ⟨hpos, -⟩
    · exact heq
    · cases hpos
  rcases hopen with ⟨-, hr, rfl⟩ | ⟨-, hopen⟩
  · exact hfail hr htasks
  · rcases openDentry_cases hopen with ⟨hr, rfl⟩ | ⟨fd, rfl, hfd, hp, rfl⟩
    · exact hfail hr htasks
    · obtain ⟨-, rfl⟩ := hrest.resolve_left fun hneg => by omega
      have hset : (s₁.install t fd (s₁.files.fresh mem.file)
          (s₁.newOpen d readOnly)).tasks.slot (t, fd) = s₁.files.fresh mem.file := by
        change (s₁.tasks.modify t fun task => task.setFd fd _).slot (t, fd) = _
        rw [slot_setFd (htasks ▸ htask), update_self]
      rw [State.sysClose, fdOf_val]
      dsimp only
      rw [hset, if_neg hp]
      change (s₁.tasks.modify t fun task => task.setFd fd _).modify t
        (fun task => task.setFd fd 0) = _
      rw [setFd_clear (htasks ▸ htask) hfd, htasks]

theorem get_closeFd (fd : Fin 32) : ∃ task', (closeFd t s fd).tasks.get t = some task' := by
  rw [closeFd]
  split_ifs
  · exact ⟨_, htask⟩
  · exact ⟨_, get_modify_self htask⟩

theorem slot_closeFd (fd : Fin 32) (x : ℕ × Fin 32) :
    (closeFd t s fd).tasks.slot x = if x = (t, fd) then 0 else s.tasks.slot x := by
  rw [closeFd]
  split_ifs with hzero hx hx
  · rw [hx, hzero]
  · rfl
  · rw [slot_closeSlot htask, if_pos hx]
  · rw [slot_closeSlot htask, if_neg hx]

end

theorem closeFds_invariant {I : State → Prop} (l : List (Fin 32))
    (hstep : ∀ s task fd, I s → s.tasks.get t = some task → I (closeFd t s fd)) (hs : I s)
    (htask : s.tasks.get t = some task) :
    I (l.foldl (closeFd t) s) ∧ (∃ task', (l.foldl (closeFd t) s).tasks.get t = some task') ∧
      ∀ x, (l.foldl (closeFd t) s).tasks.slot x =
        if x.1 = t ∧ x.2 ∈ l then 0 else s.tasks.slot x := by
  induction l generalizing s task with
  | nil => exact ⟨hs, ⟨task, htask⟩, fun x => (if_neg (by simp)).symm⟩
  | cons fd l ih =>
    obtain ⟨task', htask'⟩ := get_closeFd htask fd
    obtain ⟨hI, hget, hslot⟩ := ih (hstep s task fd hs htask) htask'
    refine ⟨hI, hget, fun x => (hslot x).trans ?_⟩
    rw [slot_closeFd htask]
    obtain ⟨u, k⟩ := x
    by_cases hu : u = t
    · by_cases hk : k = fd
      · simp [hu, hk]
      · simp [hk]
    · simp [hu]

theorem sysExit_cases {I : State → Prop}
    (hstep : ∀ s task fd, I s → s.tasks.get t = some task → I (closeFd t s fd)) (hs : I s)
    (htask : s.tasks.get t = some task) :
    ∃ s₁, I s₁ ∧ (s.sysExit t).tasks = s₁.tasks.remove t ∧
      (s.sysExit t).tasks.slot = s₁.tasks.slot ∧
      s.sysExit t = { s₁ with tasks := s₁.tasks.remove t } := by
  obtain ⟨hI, -, hslot⟩ := closeFds_invariant (List.finRange 32) hstep hs htask
  rw [sysExit]
  generalize (List.finRange 32).foldl (closeFd t) s = s₁ at hI hslot ⊢
  refine ⟨s₁, hI, rfl, funext fun x => ?_, rfl⟩
  rw [slot_remove, hslot]
  by_cases hx : x.1 = t
  · rw [if_pos hx, if_pos ⟨hx, List.mem_finRange _⟩]
  · rw [if_neg hx]

theorem forall_boot {P : ℕ → Prop} (hroot : P 1) (hdev : P 2) : ∀ d ∈ ({1, 2} : Finset ℕ), P d := by
  simp [hroot, hdev]

theorem slot_boot {tty : Bool} (hx : (boot tty).tasks.slot x ≠ 0) :
    tty = true ∧ (boot tty).tasks.slot x ∈ ({1, 2, 3} : Finset ℕ) := by
  obtain ⟨u, fd⟩ := x
  have hmem := mem_slots.mp (mem_slots_of_ne_zero hx)
  obtain rfl : u = 0 := Nat.lt_one_iff.mp hmem
  cases tty with
  | false => exact absurd rfl hx
  | true =>
    have hall : ∀ fd : Fin 32, (boot true).tasks.slot (0, fd) ≠ 0 →
        (boot true).tasks.slot (0, fd) ∈ ({1, 2, 3} : Finset ℕ) := by decide
    exact ⟨rfl, hall fd hx⟩

end State

end Aevros.Vfs
