import Aevros.Vfs.Rules

/-! # Lifetime of inodes

An inode counts its descriptors and is in use as long as it has a dentry or a descriptor. This holds
as long as nothing is unlinked that is open, and not of the terminal's inode.
-/

namespace Aevros.Vfs

open Runs Finset Cells Holders State Function Option

def ttyInode : ℕ := 3

/-- Inodes count their descriptors, and are freed when they have no dentry and no descriptor. -/
structure InodesKept (tty : Bool) (s : State) : Prop where
  counted : ∀ q ∈ s.inodes.live, (tty = true → q ≠ ttyInode) →
    (s.inodes.get q).refCount = (s.inodeSlots q).card
  held : ∀ x q, s.inodeOf x = some q → q ∈ s.inodes.live
  freed : ∀ q ∈ s.inodes.live, q ≠ ttyInode →
    (∃ d ∈ s.dentries.live, (s.dentries.get d).inode = q) ∨ (s.inodeSlots q).Nonempty

def MakesBoth (s : State) (mem : Memory) : Prop :=
  s.inodes.fresh mem.inode ≠ 0 → s.dentries.fresh mem.dentry ≠ 0

/-- The file counts all descriptors that refer to it. -/
def ClosesCounted (s : State) (p : ℕ) : Prop := (s.fileSlots p).card ≤ (s.files.get p).refCount

/-- A dentry without entries that is no working directory and whose inode is not open. -/
structure RemovesClosed (s : State) (d : ℕ) : Prop where
  empty : ∀ b, (s.dentries.get d).hashBucket b = 0
  cwd : ∀ t task, s.tasks.get t = some task → task.cwd ≠ d
  closed : s.inodeSlots (s.dentries.get d).inode = ∅

/-- Each dentry has an inode of its own, and each descriptor a file and an inode in use. -/
structure Owned (tty : Bool) (s : State) : Prop extends Rooted s where
  inode_null : 0 ∉ s.inodes.live
  tty_mem : ttyInode ∈ s.inodes.live
  inode_mem : ∀ d ∈ s.dentries.live, (s.dentries.get d).inode ∈ s.inodes.live
  inode_ne : ∀ d ∈ s.dentries.live, (s.dentries.get d).inode ≠ ttyInode
  inode_inj : ∀ d ∈ s.dentries.live, ∀ d' ∈ s.dentries.live,
    (s.dentries.get d).inode = (s.dentries.get d').inode → d = d'
  linked : ∀ q ∈ s.inodes.live, q ≠ ttyInode → ∃ d ∈ s.dentries.live, (s.dentries.get d).inode = q
  slot_file : ∀ x, s.tasks.slot x ≠ 0 → s.tasks.slot x ∈ s.files.live
  slot_inode : ∀ x q, s.inodeOf x = some q → q ∈ s.inodes.live
  counted : ∀ q ∈ s.inodes.live, (tty = true → q ≠ ttyInode) →
    (s.inodes.get q).refCount = (s.inodeSlots q).card

variable {tty : Bool} {s s' s₁ : State} {t p q d : ℕ} {task : Task} {fd : Fin 32} {c : Copying}
  {mem : Memory} {i : Inode}

theorem Owned.inodeSlots_eq_empty (h : Owned tty s) (hq : q ∉ s.inodes.live) : s.inodeSlots q = ∅ :=
  eq_empty_of_forall_notMem fun x hx => hq (h.slot_inode x q (mem_holders.mp hx).2)

theorem inodeOf_eq_some {x : ℕ × Fin 32} : s.inodeOf x = some q ↔
    s.tasks.slot x ≠ 0 ∧ (s.files.get (s.tasks.slot x)).inode = q := by
  rw [inodeOf, fileOf]
  split_ifs with hzero
  · simp [hzero]
  · simp [hzero]

theorem inodeOf_congr (hslot : s'.tasks.slot = s.tasks.slot)
    (hinode : ∀ p, (s'.files.get p).inode = (s.files.get p).inode) : s'.inodeOf = s.inodeOf := by
  funext x
  simp only [inodeOf, fileOf, hslot, hinode]

theorem inodeSlots_congr (hslots : s'.tasks.slots = s.tasks.slots) (hof : s'.inodeOf = s.inodeOf) :
    s'.inodeSlots = s.inodeSlots := by
  funext q
  rw [inodeSlots, inodeSlots, hslots, hof]

theorem Owned.link {parent child inode : ℕ} {name : List Byte} (h : Owned tty s)
    (hrooted : Rooted (s.link parent child inode (some name) (dentryHash name) i))
    (hparent : parent ∈ s.dentries.live) (hchild : child ∉ s.dentries.live)
    (hinode : inode ∉ s.inodes.live) (hzero : inode ≠ 0) (hrefs : i.refCount = 0) :
    Owned tty (s.link parent child inode (some name) (dentryHash name) i) := by
  have hne : child ≠ parent := fun heq => hchild (heq ▸ hparent)
  have hold : ∀ d ∈ s.dentries.live,
      ((s.link parent child inode (some name) (dentryHash name) i).dentries.get d).inode =
        (s.dentries.get d).inode := fun d hd =>
    get_link_field (g := Dentry.inode) (fun _ _ _ => rfl)
      (fun heq : d = child => hchild (heq ▸ hd)) _
  have hnew : ((s.link parent child inode (some name) (dentryHash name) i).dentries.get
      child).inode = inode := congrArg Dentry.inode (get_link_child hne _)
  have hlive : ∀ d, d ∈ (s.link parent child inode (some name) (dentryHash name) i).dentries.live ↔
      d = child ∨ d ∈ s.dentries.live := fun d => mem_insert
  have hilive : ∀ q, q ∈ (s.link parent child inode (some name) (dentryHash name) i).inodes.live ↔
      q = inode ∨ q ∈ s.inodes.live := fun q => mem_insert
  have hapart : ∀ d ∈ s.dentries.live, (s.dentries.get d).inode ≠ inode :=
    fun d hd heq => hinode (heq ▸ h.inode_mem d hd)
  refine ⟨hrooted, ?_, ?_, ?_, ?_, ?_, ?_, ?_, ?_, ?_⟩
  · rw [hilive]
    exact not_or.mpr ⟨hzero.symm, h.inode_null⟩
  · exact (hilive _).mpr (.inr h.tty_mem)
  · exact (forall_link (g := Dentry.inode) (P := (· ∈ insert inode s.inodes.live))
      (fun _ _ _ => rfl) hchild hne).mpr ⟨mem_insert_self ..,
        fun d hd => mem_insert_of_mem (h.inode_mem d hd)⟩
  · exact (forall_link (g := Dentry.inode) (P := (· ≠ ttyInode)) (fun _ _ _ => rfl) hchild hne).mpr
      ⟨fun heq : inode = ttyInode => hinode (heq ▸ h.tty_mem), h.inode_ne⟩
  · intro d hd d' hd'
    rcases (hlive d).mp hd with rfl | hmem
    · rcases (hlive d').mp hd' with rfl | hmem'
      · exact fun _ => rfl
      · rw [hnew, hold d' hmem']
        exact fun heq => absurd heq.symm (hapart d' hmem')
    · rcases (hlive d').mp hd' with rfl | hmem'
      · rw [hnew, hold d hmem]
        exact fun heq => absurd heq (hapart d hmem)
      · rw [hold d hmem, hold d' hmem']
        exact h.inode_inj d hmem d' hmem'
  · intro q hq hqne
    rcases (hilive q).mp hq with rfl | hq
    · exact ⟨child, (hlive _).mpr (.inl rfl), hnew⟩
    · obtain ⟨d, hd, rfl⟩ := h.linked q hq hqne
      exact ⟨d, (hlive _).mpr (.inr hd), hold d hd⟩
  · exact h.slot_file
  · exact fun x q hx => (hilive q).mpr (.inr (h.slot_inode x q hx))
  · intro q hq hqne
    change ((s.inodes.put inode i).get q).refCount = (s.inodeSlots q).card
    rcases (hilive q).mp hq with rfl | hq
    · rw [get_put_self, hrefs, h.inodeSlots_eq_empty hinode, card_empty]
    · rw [get_put_of_ne fun heq : q = inode => hinode (heq ▸ hq)]
      exact h.counted q hq hqne

theorem Owned.made (h : Owned tty s) (hmakes : MakesBoth s mem) (hrefs : i.refCount = 0)
    (hmade : Made s mem i s') : Owned tty s' := by
  have hrooted := h.toRooted.made hmade
  cases hmade with
  | same => exact h
  | lost hzero =>
    have hnone : s.inodes.fresh mem.inode = 0 := not_not.mp fun hne => hmakes hne hzero
    rw [hnone]
    exact h
  | linked hparent hchild _ hinode hizero => exact h.link hrooted hparent hchild hinode hizero hrefs

theorem Owned.remove {target : ℕ} {name : List Byte} (h : Owned tty s)
    (hlive : target ∈ s.dentries.live) (hroot : target ≠ s.root) (hremoves : RemovesClosed s target)
    (hname : (s.dentries.get target).name = some name)
    (hunhash : s.unhash (s.dentries.get target).parent target (dentryHash name) = some s₁)
    (heq : s' = { s₁.releaseInode (s.dentries.get target).inode with
      dentries := (s₁.releaseInode (s.dentries.get target).inode).dentries.free target }) :
    Owned tty s' := by
  obtain ⟨hlive', hfiles, htasks⟩ := unlink_frame hunhash heq
  obtain ⟨-, hinodes₁, -, -, -⟩ := unhash_frame hunhash
  have hrooted := h.toRooted.remove hunhash heq hlive hroot hremoves.empty hremoves.cwd hname
  have hlast : ((s.inodes.modify (s.dentries.get target).inode Inode.dropRef).get
      (s.dentries.get target).inode).refCount = 0 := by
    have hcounted := h.counted _ (h.inode_mem target hlive) fun _ => h.inode_ne target hlive
    rw [hremoves.closed, card_empty] at hcounted
    rw [get_modify_self]
    change (s.inodes.get (s.dentries.get target).inode).refCount - 1 = 0
    omega
  have hinodes : s'.inodes = (s.inodes.modify (s.dentries.get target).inode Inode.dropRef).free
      (s.dentries.get target).inode := by
    rw [heq]
    simp only [releaseInode, hinodes₁, if_pos hlast]
  have hinode : ∀ d, (s'.dentries.get d).inode = (s.dentries.get d).inode := by
    intro d
    rw [heq]
    rw [(releaseInode_frame _).2.2.1]
    exact unhash_field (fun _ _ _ => rfl) (fun _ _ => rfl) hunhash d
  have hmem : ∀ d, d ∈ s'.dentries.live ↔ d ≠ target ∧ d ∈ s.dentries.live := by
    intro d
    rw [hlive', mem_erase]
  have himem : ∀ q, q ∈ s'.inodes.live ↔ q ≠ (s.dentries.get target).inode ∧ q ∈ s.inodes.live := by
    intro q
    rw [hinodes, live_free, live_modify, mem_erase]
  have hof : s'.inodeOf = s.inodeOf := inodeOf_congr (by rw [htasks]) fun p => by rw [hfiles]
  have hslots : s'.inodeSlots = s.inodeSlots := inodeSlots_congr (by rw [htasks]) hof
  refine ⟨hrooted, ?_, ?_, ?_, ?_, ?_, ?_, ?_, ?_, ?_⟩
  · exact fun hzero => h.inode_null ((himem 0).mp hzero).2
  · exact (himem _).mpr ⟨(h.inode_ne target hlive).symm, h.tty_mem⟩
  · intro d hd
    obtain ⟨hne, hd⟩ := (hmem d).mp hd
    rw [hinode, himem]
    exact ⟨fun heq => hne (h.inode_inj d hd target hlive heq), h.inode_mem d hd⟩
  · exact fun d hd => hinode d ▸ h.inode_ne d ((hmem d).mp hd).2
  · intro d hd d' hd' heq
    rw [hinode, hinode] at heq
    exact h.inode_inj d ((hmem d).mp hd).2 d' ((hmem d').mp hd').2 heq
  · intro q hq hqne
    obtain ⟨hne, hq⟩ := (himem q).mp hq
    obtain ⟨d, hd, rfl⟩ := h.linked q hq hqne
    exact ⟨d, (hmem d).mpr ⟨fun heq => hne (by rw [heq]), hd⟩, hinode d⟩
  · rw [htasks, hfiles]
    exact h.slot_file
  · intro x q hx
    rw [hof] at hx
    refine (himem q).mpr ⟨fun heq => ?_, h.slot_inode x q hx⟩
    -- the inode of the removed dentry has no descriptors
    obtain ⟨hne, -⟩ := inodeOf_eq_some.mp hx
    have hslot : x ∈ s.inodeSlots (s.dentries.get target).inode :=
      mem_holders.mpr ⟨Tasks.mem_slots_of_ne_zero hne, heq ▸ hx⟩
    rw [hremoves.closed] at hslot
    exact notMem_empty x hslot
  · intro q hq hqne
    obtain ⟨hne, hq⟩ := (himem q).mp hq
    rw [hslots, hinodes, get_free, get_modify_of_ne hne]
    exact h.counted q hq hqne

theorem inodeOf_install {file : File} (htask : s.tasks.get t = some task) (hp : p ≠ 0)
    (hfree : ∀ x, s.tasks.slot x ≠ p) : (s.install t fd p file).inodeOf =
      update s.inodeOf (t, fd) (some file.inode) := by
  have hof : (s.install t fd p file).fileOf = _ := fileOf_setFd htask rfl
  rw [if_neg hp] at hof
  funext x
  rw [inodeOf, hof]
  change Option.map (fun q => ((s.files.put p file).get q).inode) _ = _
  by_cases hx : x = (t, fd)
  · rw [hx, update_self, update_self, map_some, get_put_self]
  · rw [update_of_ne hx, update_of_ne hx]
    refine map_congr fun q hq => ?_
    rw [get_put_of_ne fun heq => hfree x ((fileOf_eq_some.mp hq).1.trans heq)]

theorem inodeOf_closeSlot (htask : s.tasks.get t = some task) :
    (s.closeSlot t fd p).inodeOf = update s.inodeOf (t, fd) none := by
  have hof : (s.closeSlot t fd p).fileOf = _ := fileOf_setFd htask rfl
  have hinode : ∀ q, ((s.closeSlot t fd p).files.get q).inode = (s.files.get q).inode :=
    get_closeSlot_field fun _ => rfl
  rw [if_pos rfl] at hof
  funext x
  rw [inodeOf, hof]
  by_cases hx : x = (t, fd)
  · rw [hx, update_self, update_self, map_none]
  · rw [update_of_ne hx, update_of_ne hx]
    exact congrArg (Option.map · _) (funext hinode)

theorem Owned.install (flags : Word) (h : Owned tty s) (htask : s.tasks.get t = some task)
    (hfd : task.fdTable fd = 0) (hp : p ≠ 0) (hfree : p ∉ s.files.live)
    (hd : d ∈ s.dentries.live) : Owned tty (s.install t fd p (s.newOpen d flags)) := by
  have hslots : ∀ x, s.tasks.slot x ≠ p := fun x hx => hfree (hx ▸ h.slot_file x (hx ▸ hp))
  have hof : (s.install t fd p (s.newOpen d flags)).inodeOf =
      update s.inodeOf (t, fd) (some (s.dentries.get d).inode) :=
    inodeOf_install htask hp hslots
  refine ⟨h.toRooted.setFd rfl rfl rfl, h.inode_null, h.tty_mem, h.inode_mem, h.inode_ne,
    h.inode_inj, h.linked, held_install htask h.slot_file, ?_, ?_⟩
  · intro x q hx
    rw [hof] at hx
    by_cases hxt : x = (t, fd)
    · rw [hxt, update_self] at hx
      exact some.inj hx ▸ h.inode_mem d hd
    · rw [update_of_ne hxt] at hx
      exact h.slot_inode x q hx
  · intro q hq hne
    have hnone : s.inodeOf (t, fd) = none := by
      rw [inodeOf, fileOf, Tasks.slot_of_get htask, if_pos hfd, map_none]
    have hcard := card_holders_update (g := s.inodeOf) (mem_slots_of_get htask fd)
      (some (s.dentries.get d).inode) q
    rw [hnone, if_neg (by simp), Nat.add_zero, ← hof] at hcard
    change ((s.inodes.modify (s.dentries.get d).inode Inode.addRef).get q).refCount =
      (holders s.tasks.slots _ q).card
    rw [hcard]
    have hcounted := h.counted q hq hne
    rw [inodeSlots] at hcounted
    by_cases hqd : q = (s.dentries.get d).inode
    · rw [hqd, get_modify_self, if_pos rfl, ← hqd, ← hcounted]
      rfl
    · rw [get_modify_of_ne hqd, hcounted, if_neg fun heq => hqd (some.inj heq).symm, Nat.add_zero]

theorem Owned.closeSlot (h : Owned tty s) (htask : s.tasks.get t = some task)
    (hslot : s.tasks.slot (t, fd) = p) (hp : p ≠ 0) (hcloses : ClosesCounted s p) :
    Owned tty (s.closeSlot t fd p) := by
  have hof : (s.closeSlot t fd p).inodeOf = update s.inodeOf (t, fd) none :=
    inodeOf_closeSlot htask
  have hheld : s.inodeOf (t, fd) = some (s.files.get p).inode :=
    inodeOf_eq_some.mpr ⟨hslot ▸ hp, by rw [hslot]⟩
  have hmem := h.slot_inode _ _ hheld
  have hinodes : (s.closeSlot t fd p).inodes =
      s.inodes.modify (s.files.get p).inode Inode.dropRef :=
    if_neg fun hzero : (s.files.get p).inode = 0 => h.inode_null (hzero ▸ hmem)
  have hlive : (s.closeSlot t fd p).inodes.live = s.inodes.live := by
    rw [hinodes, live_modify]
  refine ⟨h.toRooted.setFd rfl rfl rfl, ?_, ?_, ?_, h.inode_ne, h.inode_inj, ?_,
    held_closeSlot htask hslot hp h.slot_file hcloses, ?_, ?_⟩
  · rw [hlive]
    exact h.inode_null
  · rw [hlive]
    exact h.tty_mem
  · rw [hlive]
    exact h.inode_mem
  · rw [hlive]
    exact h.linked
  · intro x q hx
    rw [hof] at hx
    rw [hlive]
    by_cases hxt : x = (t, fd)
    · rw [hxt, update_self] at hx
      cases hx
    · rw [update_of_ne hxt] at hx
      exact h.slot_inode x q hx
  · intro q hq hne
    rw [hlive] at hq
    have hcard := card_holders_update (g := s.inodeOf) (mem_slots_of_get htask fd) none q
    rw [hheld, if_neg (by simp : ¬ none = some q), Nat.add_zero, ← hof] at hcard
    change _ = (holders s.tasks.slots _ q).card
    have hcounted := h.counted q hq hne
    rw [inodeSlots] at hcounted
    rw [hinodes]
    by_cases hqd : q = (s.files.get p).inode
    · rw [hqd, if_pos rfl, ← hqd] at hcard
      rw [← hqd, get_modify_self]
      change (s.inodes.get q).refCount - 1 = _
      omega
    · rw [if_neg fun heq => hqd (some.inj heq).symm, Nat.add_zero] at hcard
      rw [get_modify_of_ne hqd, hcounted, hcard]

theorem Owned.spawn {cwd : ℕ} (h : Owned tty s) (htask : s.tasks.get t = some task)
    (hcwd : cwd = 0 ∨ cwd = task.cwd) (hcounts : ∀ q, q ≠ 0 → c.counts q = true) :
    Owned tty (s.spawn c task cwd) := by
  refine ⟨h.toRooted.spawn htask hcwd, ?_, ?_, ?_, ?_, ?_, ?_, held_spawn s c task cwd htask
    h.slot_file, ?_, ?_⟩
  · rw [inodes_live_spawn]
    exact h.inode_null
  · rw [inodes_live_spawn]
    exact h.tty_mem
  · rw [inodes_live_spawn, dentries_spawn]
    exact h.inode_mem
  · rw [dentries_spawn]
    exact h.inode_ne
  · rw [dentries_spawn]
    exact h.inode_inj
  · rw [inodes_live_spawn, dentries_spawn]
    exact h.linked
  · intro x q hx
    rw [inodes_live_spawn]
    obtain ⟨hne, hinode⟩ := inodeOf_eq_some.mp hx
    rw [inode_spawn] at hinode
    rcases slot_spawn_cases s c task cwd hne with ⟨-, heq⟩ | ⟨j, -, htakes, heq⟩
    · rw [heq] at hne hinode
      exact h.slot_inode x q (inodeOf_eq_some.mpr ⟨hne, hinode⟩)
    · rw [heq, ← Tasks.slot_of_get htask] at hinode
      refine h.slot_inode (t, j) q (inodeOf_eq_some.mpr ⟨?_, hinode⟩)
      rw [Tasks.slot_of_get htask]
      exact htakes.1
  · intro q hq hne
    rw [inodes_live_spawn] at hq
    have hrefs : ((s.spawn c task cwd).inodes.get q).refCount = _ :=
      (copied_copyFds s c task.fdTable).inode_refs q
    rw [hrefs, card_inodeSlots_spawn, h.counted q hq hne,
      if_pos (hcounts q fun hzero => h.inode_null (hzero ▸ hq))]

theorem Owned.retask {ts : Tasks} (h : Owned tty s) (hrooted : Rooted { s with tasks := ts })
    (hslots : ts.slots = s.tasks.slots) (hslot : ts.slot = s.tasks.slot) :
    Owned tty { s with tasks := ts } := by
  have hof : inodeOf { s with tasks := ts } = s.inodeOf := inodeOf_congr hslot fun _ => rfl
  exact { h with
    toRooted := hrooted
    slot_file := hslot ▸ h.slot_file
    slot_inode := hof ▸ h.slot_inode
    counted := by
      rw [inodeSlots_congr hslots hof]
      exact h.counted }

theorem owned_kept (tty : Bool) : State.Kept MakesBoth ClosesCounted RemovesClosed (Owned tty) where
  rooted h := h.toRooted
  made h hmakes hrefs hmade := h.made hmakes hrefs hmade
  install {s t p d task fd} flags h htask hfd hp hfree hd := by
    refine ⟨h.install flags htask hfd hp hfree hd, ?_⟩
    have hnone : s.fileSlots p = ∅ := eq_empty_of_forall_notMem fun x hx =>
      hfree ((mem_fileSlots hp).mp hx ▸ h.slot_file x ((mem_fileSlots hp).mp hx ▸ hp))
    rw [ClosesCounted, card_fileSlots_install htask hfd hp, hnone, if_pos rfl]
    change 0 + 1 ≤ ((s.files.put p (s.newOpen d flags)).get p).refCount
    rw [get_put_self]
    exact Nat.le_refl 1
  close {s t p task fd} h htask hslot hp hcloses := by
    exact ⟨h.closeSlot htask hslot hp hcloses,
      fun _ hq => card_le_refCount_closeSlot htask hslot hp hq⟩
  remove h hlive hroot hremoves hname hunhash heq :=
    h.remove hlive hroot hremoves hname hunhash heq
  chdir h hd := h.retask (h.toRooted.setCwd hd) rfl (Tasks.slot_setCwd _)
  spawn h htask hcwd hcounts := h.spawn htask hcwd hcounts
  exit {s t} h hnone := by
    refine h.retask (h.toRooted.exit t) rfl (funext fun x => ?_)
    rw [Tasks.slot_remove]
    split_ifs with hx
    · rw [← hnone x.2, ← hx]
    · rfl

theorem inodeOf_boot {x : ℕ × Fin 32} (h : (boot tty).inodeOf x = some q) :
    tty = true ∧ q = ttyInode := by
  obtain ⟨hne, hinode⟩ := inodeOf_eq_some.mp h
  exact ⟨(slot_boot hne).1, hinode.symm⟩

theorem owned_boot (tty : Bool) : Owned tty (boot tty) := by
  have hmem : ∀ q, q ∈ (boot tty).inodes.live ↔ q = 1 ∨ q = 2 ∨ q = ttyInode := by
    intro q
    change q ∈ ({1, 2, 3} : Finset ℕ) ↔ _
    rw [mem_insert, mem_insert, mem_singleton]
    rfl
  -- the inodes of the root and of `dev` are at the addresses of their dentries
  have hinode : ∀ d ∈ (boot tty).dentries.live, ((boot tty).dentries.get d).inode = d :=
    forall_boot rfl rfl
  refine ⟨rooted_boot tty, ?_, (hmem _).mpr (.inr (.inr rfl)), ?_, ?_, ?_, ?_, ?_, ?_, ?_⟩
  · rw [hmem]
    decide
  · intro d hd
    rw [hinode d hd, hmem]
    exact (live_boot.mp hd).imp id .inl
  · exact forall_boot (Nat.succ_ne_succ_iff.mpr nofun) (Nat.succ_ne_self 2).symm
  · intro d hd d' hd' heq
    rwa [hinode d hd, hinode d' hd'] at heq
  · intro q hq hne
    have hlive : q ∈ (boot tty).dentries.live := by
      rw [live_boot]
      rcases (hmem q).mp hq with rfl | rfl | rfl
      · exact .inl rfl
      · exact .inr rfl
      · exact absurd rfl hne
    exact ⟨q, hlive, hinode q hlive⟩
  · intro x hx
    obtain ⟨rfl, hslot⟩ := slot_boot hx
    exact hslot
  · intro x q hx
    rw [(inodeOf_boot hx).2]
    exact (hmem _).mpr (.inr (.inr rfl))
  · intro q hq hne
    have hnone : (boot tty).inodeSlots q = ∅ := by
      refine eq_empty_of_forall_notMem fun x hx => ?_
      obtain ⟨htty, heq⟩ := inodeOf_boot (mem_holders.mp hx).2
      exact hne htty heq
    rw [hnone]
    rcases (hmem q).mp hq with rfl | rfl | rfl
    · rfl
    · rfl
    · rfl

/-- If only what is closed is unlinked, inodes are counted, held and freed as they should be. -/
theorem inodesKept_run (tty : Bool) {es : List Event}
    (h : Along step (Tidy MakesBoth ClosesCounted RemovesClosed) (boot tty) es) :
    InodesKept tty (run step (boot tty) es) := by
  have howned : Owned tty (run step (boot tty) es) :=
    h.run_invariant (I := Owned tty) (fun _ _ hs htidy => (owned_kept tty).step hs htidy)
      (owned_boot tty)
  exact ⟨howned.counted, howned.slot_inode, fun q hq hne => .inl (howned.linked q hq hne)⟩

def fileRun (rest : List Call) : List Event :=
  ⟨0, .open [slash, 0x66] creat, Memory.plenty 3 4 4⟩ ::
    rest.map fun call => ⟨0, call, Memory.plenty 3 4 4⟩

theorem closed_file_freed :
    InodesKept false (run step (boot false) (fileRun [.close 0, .unlink [slash, 0x66]])) := by
  have hlookup : (run step (boot false) (fileRun [.close 0])).vfsLookup 1 [slash, 0x66] =
      some 3 := by decide +kernel
  have htidy : Along step (Tidy MakesBoth ClosesCounted RemovesClosed) (boot false)
      (fileRun [.close 0, .unlink [slash, 0x66]]) := by
    refine ⟨fun task _ => ⟨⟨.inl rfl, by decide, by decide⟩, fun _ => ⟨fun _ => ?_, fun _ => ?_⟩⟩,
      fun task _ k hk _ => ?_,
      fun task htask => ⟨⟨.inl rfl, by decide, by decide⟩, fun target htarget _ _ => ?_⟩, trivial⟩
    · exact ⟨by decide, rfl, rfl⟩
    · decide
    · obtain rfl : k = 0 := some.inj (hk.symm.trans (by decide))
      unfold ClosesCounted
      decide +kernel
    · obtain rfl : target = 3 := some.inj (htarget.symm.trans hlookup)
      refine ⟨by decide +kernel, fun t task hget => ?_, by decide +kernel⟩
      obtain rfl : t = 0 := Nat.lt_one_iff.mp (Tasks.lt_of_get hget)
      cases hget
      decide
  exact inodesKept_run false htidy

theorem open_file_freed :
    (run step (boot true) (fileRun [.unlink [slash, 0x66]])).inodeOf (0, 3) = some 4 ∧
      4 ∉ (run step (boot true) (fileRun [.unlink [slash, 0x66]])).inodes.live ∧
      (∀ tty, ¬ InodesKept tty (run step (boot true) (fileRun [.unlink [slash, 0x66]]))) ∧
      ¬ InodesKept false (boot true) := by
  have hslot : (run step (boot true) (fileRun [.unlink [slash, 0x66]])).inodeOf (0, 3) =
      some 4 := by decide +kernel
  have hfreed : 4 ∉ (run step (boot true) (fileRun [.unlink [slash, 0x66]])).inodes.live := by
    decide +kernel
  refine ⟨hslot, hfreed, fun tty h => hfreed (h.held _ _ hslot), fun h => ?_⟩
  have hcounted := h.counted ttyInode (by decide) nofun
  revert hcounted
  decide +kernel

end Aevros.Vfs
