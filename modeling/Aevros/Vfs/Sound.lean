import Aevros.Vfs.Ramfs
import Aevros.Vfs.Tree

/-! # What opening, reading and writing keep

Paths lead to dentries of a set, whose inodes are in use and have room for their bytes, and each
descriptor has a file in use with the inode of its dentry. Calls keep this, for a larger set.
-/

namespace Aevros.Vfs

open Finset Cells Function BitVec Option

namespace State

/-- A file on an inode in use; one that RAMFS reads has the dentry of its inode. -/
structure FileOk (T : Finset ℕ) (s : State) (file : File) : Prop where
  inode : file.inode ∈ s.inodes.live
  dentry : (s.inodes.get file.inode).ops = some .ramfs → file.dentry ∈ T ∧
    (s.dentries.get file.dentry).inode = file.inode
  offset : (s.inodes.get file.inode).ops = some .ramfs →
    file.offset ≤ (s.inodes.get file.inode).size

structure Sound (T : Finset ℕ) (s : State) : Prop where
  live : T ⊆ s.dentries.live
  null : 0 ∉ T
  root : s.root ∈ T
  cwd : ∀ t task, s.tasks.get t = some task → task.cwd = 0 ∨ task.cwd ∈ T
  parent : ∀ d ∈ T, (s.dentries.get d).parent = 0 ∨ (s.dentries.get d).parent ∈ T
  bucket : ∀ d ∈ T, ∀ b, (s.dentries.get d).hashBucket b = 0 ∨ (s.dentries.get d).hashBucket b ∈ T
  next : ∀ d ∈ T, s.next d = 0 ∨ s.next d ∈ T
  mount : ∀ d ∈ T, (s.dentries.get d).mount = 0
  inode_null : 0 ∉ s.inodes.live
  inode : ∀ d ∈ T, (s.dentries.get d).inode ∈ s.inodes.live
  sized : ∀ d ∈ T, (s.inodes.get (s.dentries.get d).inode).Sized
  held : ∀ x, s.tasks.slot x ≠ 0 → s.tasks.slot x ∈ s.files.live
  counted : ∀ p, (s.fileSlots p).card ≤ (s.files.get p).refCount
  file : ∀ x, s.tasks.slot x ≠ 0 → FileOk T s (s.files.get (s.tasks.slot x))

variable {T : Finset ℕ} {s s' : State} {t p d r cwd : ℕ} {task : Task} {path seg name : List Byte}
  {flags n : Word} {mem : Memory}

theorem FileOk.mono {T' : Finset ℕ} {file : File} (h : FileOk T s file) (hT : T ⊆ T')
    (hinodes : ∀ q ∈ s.inodes.live, q ∈ s'.inodes.live ∧
      (s'.inodes.get q).ops = (s.inodes.get q).ops ∧ (s.inodes.get q).size ≤ (s'.inodes.get q).size)
    (hdentries : ∀ d ∈ T, (s'.dentries.get d).inode = (s.dentries.get d).inode) :
    FileOk T' s' file := by
  obtain ⟨hmem, hops, hsize⟩ := hinodes _ h.inode
  refine ⟨hmem, fun hram => ?_, fun hram => ?_⟩
  · obtain ⟨hdentry, hinode⟩ := h.dentry (hops ▸ hram)
    exact ⟨hT hdentry, (hdentries _ hdentry).trans hinode⟩
  · exact BitVec.le_trans (h.offset (hops ▸ hram)) hsize

theorem FileOk.congr {file file' : File} (h : FileOk T s file) (hinode : file'.inode = file.inode)
    (hdentry : file'.dentry = file.dentry) (hoffset : file'.offset = file.offset) :
    FileOk T s file' := by
  cases file
  subst hinode hdentry hoffset
  exact ⟨h.inode, h.dentry, h.offset⟩

theorem sized_newFile (junk : ℕ → Byte) : (newFile junk).Sized := by
  rintro ram hram
  cases hram
  change 0 < (4096 : Word).toNat ∧ (0 : Word) ≤ 4096
  decide

theorem Sound.link {parent child inode : ℕ} {b : Fin 32} {i : Inode} (o : Option (List Byte))
    (h : Sound T s) (hparent : parent ∈ T) (hchild : child ∉ s.dentries.live) (hzero : child ≠ 0)
    (hinode : inode ∉ s.inodes.live) (hizero : inode ≠ 0) (hi : i.Sized) :
    Sound (insert child T) (s.link parent child inode o b i) := by
  have hne : child ≠ parent := fun heq => hchild (heq ▸ h.live hparent)
  have hnew : child ∉ T := fun hmem => hchild (h.live hmem)
  have hold : ∀ d ∈ T, d ≠ child := fun d hd heq => hnew (heq ▸ hd)
  have hfield : ∀ d ∈ T, ((s.link parent child inode o b i).dentries.get d).inode =
      (s.dentries.get d).inode := fun d hd =>
    get_link_field (g := Dentry.inode) (fun _ _ _ => rfl) (hold d hd) o
  have higet : ∀ q ∈ s.inodes.live, (s.link parent child inode o b i).inodes.get q =
      s.inodes.get q := fun q hq =>
    get_put_of_ne fun heq : q = inode => hinode (heq ▸ hq)
  refine ⟨?_, ?_, mem_insert_of_mem h.root, ?_, ?_, ?_, ?_, ?_, ?_, ?_, ?_, h.held,
    h.counted, fun x hx => ?_⟩
  · exact insert_subset_insert child h.live
  · rw [mem_insert]
    exact not_or.mpr ⟨hzero.symm, h.null⟩
  · exact fun t task htask => (h.cwd t task htask).imp id mem_insert_of_mem
  · exact (forall_link (g := Dentry.parent) (P := fun d => d = 0 ∨ d ∈ insert child T)
      (fun _ _ _ => rfl) hnew hne).mpr ⟨.inr (mem_insert_of_mem hparent),
        fun d hd => (h.parent d hd).imp id mem_insert_of_mem⟩
  · intro d hd b'
    rcases mem_insert.mp hd with rfl | hd
    · rw [get_link_child hne]
      exact .inl rfl
    · rw [hashBucket_link (hold d hd) hne]
      split_ifs
      · exact .inr (mem_insert_self ..)
      · exact (h.bucket d hd b').imp id mem_insert_of_mem
  · intro d hd
    rw [next_link hne]
    rcases mem_insert.mp hd with rfl | hd
    · rw [update_self]
      exact (h.bucket parent hparent b).imp id mem_insert_of_mem
    · rw [update_of_ne (hold d hd)]
      exact (h.next d hd).imp id mem_insert_of_mem
  · exact (forall_link (g := Dentry.mount) (P := (· = 0)) (fun _ _ _ => rfl) hnew hne).mpr
      ⟨rfl, h.mount⟩
  · exact fun hz => (mem_insert.mp hz).elim (fun heq => hizero heq.symm) h.inode_null
  · exact (forall_link (g := Dentry.inode) (P := (· ∈ insert inode s.inodes.live))
      (fun _ _ _ => rfl) hnew hne).mpr ⟨mem_insert_self ..,
        fun d hd => mem_insert_of_mem (h.inode d hd)⟩
  · refine (forall_link (g := Dentry.inode) (P := fun q => ((s.inodes.put inode i).get q).Sized)
      (fun _ _ _ => rfl) hnew hne).mpr ⟨get_put_self.symm ▸ hi, fun d hd => ?_⟩
    exact (higet _ (h.inode d hd)).symm ▸ h.sized d hd
  · refine (h.file x hx).mono (subset_insert ..) (fun q hq => ?_) hfield
    rw [higet q hq]
    exact ⟨mem_insert_of_mem hq, rfl, BitVec.le_refl _⟩

theorem inode_modify {f : Inode → Inode} (hf : ∀ inode, (f inode).ops = inode.ops ∧
      (f inode).size = inode.size ∧ (f inode).fsPrivate = inode.fsPrivate) (q r : ℕ) :
    ((s.inodes.modify q f).get r).ops = (s.inodes.get r).ops ∧
      ((s.inodes.modify q f).get r).size = (s.inodes.get r).size ∧
      ((s.inodes.modify q f).get r).fsPrivate = (s.inodes.get r).fsPrivate := by
  by_cases hr : r = q
  · rw [hr, get_modify_self]
    exact hf _
  · rw [get_modify_of_ne hr]
    exact ⟨rfl, rfl, rfl⟩

section

variable (h : Sound T s)

include h

namespace Sound

theorem findChild {fuel : ℕ} (hp : p = 0 ∨ p ∈ T) (hcall : s.findChild seg fuel p = some r) :
    r = 0 ∨ r ∈ T := by
  induction fuel generalizing p with
  | zero => cases hcall
  | succ fuel ih =>
    rw [State.findChild] at hcall
    split_ifs at hcall with hzero
    · exact .inl (some.inj hcall).symm
    cases hname : (s.dentries.get p).name with
    | none =>
      rw [hname] at hcall
      cases hcall
    | some name =>
      rw [hname] at hcall
      dsimp only at hcall
      split_ifs at hcall
      · exact some.inj hcall ▸ hp
      · exact ih (h.next p (hp.resolve_left hzero)) hcall

theorem resolveSegment (hd : d = 0 ∨ d ∈ T) (hcall : s.resolveFrom d [seg] = some r) :
    r = 0 ∨ r ∈ T := by
  rw [resolveFrom_singleton] at hcall
  split_ifs at hcall with hfits hdot hdots hparent hdir
  · exact some.inj hcall ▸ hd
  · exact some.inj hcall ▸ h.parent d (hd.resolve_left fun hzero => hfits (.inl hzero))
  · exact some.inj hcall ▸ hd
  · exact .inl (some.inj hcall).symm
  · exact h.findChild (h.bucket d (hd.resolve_left fun hzero => hfits (.inl hzero)) _) hcall

theorem resolveFrom {segs : List (List Byte)} (hd : d = 0 ∨ d ∈ T)
    (hcall : s.resolveFrom d segs = some r) : r = 0 ∨ r ∈ T := by
  induction segs generalizing d with
  | nil => exact some.inj hcall ▸ hd
  | cons seg segs ih =>
    rw [resolveFrom_cons] at hcall
    obtain ⟨n, hn, hcall⟩ := bind_eq_some_iff.mp hcall
    split_ifs at hcall
    · exact .inl (some.inj hcall).symm
    · exact ih (h.resolveSegment hd hn) hcall

theorem vfsFollowMount (hd : d = 0 ∨ d ∈ T) : s.vfsFollowMount d = d := by
  rw [State.vfsFollowMount]
  split_ifs with hzero hmount
  · exact hzero.symm
  · exact absurd (h.mount d (hd.resolve_left hzero)) hmount
  · rfl

theorem vfsLookup (hcwd : cwd = 0 ∨ cwd ∈ T) (hcall : s.vfsLookup cwd path = some r) :
    r = 0 ∨ r ∈ T := by
  obtain ⟨d, hresolve, rfl⟩ := map_eq_some_iff.mp hcall
  have hd : d = 0 ∨ d ∈ T := by
    refine h.resolveFrom ?_ hresolve
    split_ifs
    · exact .inr h.root
    · exact hcwd
  rw [h.vfsFollowMount hd]
  exact hd

theorem resolveParentDir (hcwd : cwd = 0 ∨ cwd ∈ T)
    (hcall : s.resolveParentDir cwd path = some (p, name)) : p = 0 ∨ p ∈ T := by
  rw [State.resolveParentDir] at hcall
  dsimp only at hcall
  split_ifs at hcall
  · obtain ⟨parent, hlookup, heq⟩ := map_eq_some_iff.mp hcall
    cases heq
    exact h.vfsLookup hcwd hlookup
  · cases hcall
    exact hcwd

theorem leak (child inode : ℕ) : Sound T (s.leak child inode) := by
  have hmore : ∀ L M, s.dentries.live ⊆ L → s.inodes.live ⊆ M → 0 ∉ M → Sound T { s with
      dentries := { s.dentries with live := L }, inodes := { s.inodes with live := M } } :=
    fun L M hL hM hnull => { h with
      live := h.live.trans hL
      inode_null := hnull
      inode := fun d hd => hM (h.inode d hd)
      file := fun x hx => (h.file x hx).mono subset_rfl
        (fun q hq => ⟨hM hq, rfl, BitVec.le_refl _⟩) fun _ _ => rfl }
  have hnull : inode ≠ 0 → 0 ∉ insert inode s.inodes.live := fun hzero hmem =>
    (mem_insert.mp hmem).elim (fun heq => hzero heq.symm) h.inode_null
  rw [State.leak]
  split_ifs with hc hi hi
  · exact h
  · exact hmore _ _ subset_rfl (subset_insert ..) (hnull hi)
  · exact hmore _ _ (subset_insert ..) subset_rfl h.inode_null
  · exact hmore _ _ (subset_insert ..) (subset_insert ..) (hnull hi)

theorem reslot (hd : s'.dentries = s.dentries) (hr : s'.root = s.root)
    (hlive : s'.inodes.live = s.inodes.live)
    (hinode : ∀ q, (s'.inodes.get q).ops = (s.inodes.get q).ops ∧ (s'.inodes.get q).size =
      (s.inodes.get q).size ∧ (s'.inodes.get q).fsPrivate = (s.inodes.get q).fsPrivate)
    (hcwd : ∀ t task, s'.tasks.get t = some task → task.cwd = 0 ∨ task.cwd ∈ T)
    (hheld : ∀ x, s'.tasks.slot x ≠ 0 → s'.tasks.slot x ∈ s'.files.live)
    (hcounted : ∀ p, (s'.fileSlots p).card ≤ (s'.files.get p).refCount)
    (hfile : ∀ x, s'.tasks.slot x ≠ 0 → FileOk T s (s'.files.get (s'.tasks.slot x))) :
    Sound T s' := by
  cases s'
  cases hd
  cases hr
  refine ⟨h.live, h.null, h.root, hcwd, h.parent, h.bucket, h.next, h.mount, ?_, ?_, ?_, hheld,
    hcounted, fun x hx => ?_⟩
  · rw [hlive]
    exact h.inode_null
  · rw [hlive]
    exact h.inode
  · intro d hmem ram hram
    obtain ⟨-, hsize, hprivate⟩ := hinode (s.dentries.get d).inode
    rw [hprivate] at hram
    rw [hsize]
    exact h.sized d hmem ram hram
  · refine (hfile x hx).mono subset_rfl (fun q hq => ?_) fun _ _ => rfl
    obtain ⟨hops, hsize, -⟩ := hinode q
    exact ⟨hlive ▸ hq, hops, hsize ▸ BitVec.le_refl _⟩

theorem install {fd : Fin 32} (htask : s.tasks.get t = some task) (hfd : task.fdTable fd = 0)
    (hp : p ≠ 0) (hfree : p ∉ s.files.live) (hd : d ∈ T) :
    Sound T (s.install t fd p (s.newOpen d flags)) := by
  have hslots : ∀ x, s.tasks.slot x ≠ p := fun x hx => hfree (hx ▸ h.held x (hx ▸ hp))
  have hset : (s.install t fd p (s.newOpen d flags)).tasks.slot =
      update s.tasks.slot (t, fd) p := Tasks.slot_setFd htask fd p
  have hput : (s.install t fd p (s.newOpen d flags)).files = s.files.put p (s.newOpen d flags) :=
    rfl
  refine h.reslot rfl rfl rfl (inode_modify (f := Inode.addRef) (fun _ => ⟨rfl, rfl, rfl⟩) _)
    (fun u task' hget => ?_) (held_install htask h.held) (fun q => ?_) fun x hx => ?_
  · obtain ⟨task₀, htask₀, heq⟩ := Tasks.get_setFd hget
    exact heq ▸ h.cwd u task₀ htask₀
  · rw [card_fileSlots_install htask hfd hp, hput]
    by_cases hq : p = q
    · subst hq
      have hnone : s.fileSlots p = ∅ := eq_empty_of_forall_notMem fun x hx =>
        hslots x ((mem_fileSlots hp).mp hx)
      rw [hnone, if_pos rfl, get_put_self]
      exact Nat.le_refl 1
    · rw [if_neg hq, get_put_of_ne (Ne.symm hq)]
      exact h.counted q
  · rw [hset] at hx ⊢
    rw [hput]
    by_cases hxt : x = (t, fd)
    · rw [hxt, update_self, get_put_self]
      refine ⟨h.inode d hd, fun _ => ?_, fun _ => le_def.mpr (Nat.zero_le _)⟩
      change s.vfsFollowMount d ∈ T ∧ (s.dentries.get (s.vfsFollowMount d)).inode = _
      rw [h.vfsFollowMount (.inr hd)]
      exact ⟨hd, rfl⟩
    · rw [update_of_ne hxt] at hx ⊢
      rw [get_put_of_ne (hslots x)]
      exact h.file x hx

theorem closeSlot {fd : Fin 32} (htask : s.tasks.get t = some task)
    (hslot : s.tasks.slot (t, fd) = p) (hp : p ≠ 0) : Sound T (s.closeSlot t fd p) := by
  have hinodes : ∀ q, ((s.closeSlot t fd p).inodes.get q).ops = (s.inodes.get q).ops ∧
      ((s.closeSlot t fd p).inodes.get q).size = (s.inodes.get q).size ∧
      ((s.closeSlot t fd p).inodes.get q).fsPrivate = (s.inodes.get q).fsPrivate := fun q =>
    ⟨inode_closeSlot_field (g := Inode.ops) (fun _ => rfl) q,
      inode_closeSlot_field (g := Inode.size) (fun _ => rfl) q,
      inode_closeSlot_field (g := Inode.fsPrivate) (fun _ => rfl) q⟩
  refine h.reslot rfl rfl inodes_live_closeSlot hinodes (fun u task' hget => ?_)
    (held_closeSlot htask hslot hp h.held (h.counted p)) (fun q => ?_) fun x hx => ?_
  · obtain ⟨task₀, htask₀, heq⟩ := Tasks.get_setFd hget
    exact heq ▸ h.cwd u task₀ htask₀
  · exact card_le_refCount_closeSlot htask hslot hp (h.counted q)
  · rw [slot_closeSlot htask] at hx ⊢
    split_ifs at hx ⊢ with hxt
    · exact absurd rfl hx
    · refine (h.file x hx).congr ?_ ?_ ?_
      · exact get_closeSlot_field (g := File.inode) (fun _ => rfl) _
      · exact get_closeSlot_field (g := File.dentry) (fun _ => rfl) _
      · exact get_closeSlot_field (g := File.offset) (fun _ => rfl) _

end Sound

end

end State

end Aevros.Vfs
