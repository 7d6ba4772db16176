import Aevros.Vfs.Slots

/-! # The tree of directories

Each dentry but the root is in the bucket of its parent that its name hashes to, and the buckets
hold nothing else. Making an entry keeps this, and so does removing one without entries.
-/

namespace Aevros.Vfs

open List Cells Chain Function Option

namespace State

variable (s : State)

/-- `c` is an entry of `d`, and its name hashes to `b`. -/
def IsEntry (d : ℕ) (b : Fin 32) (c : ℕ) : Prop :=
  c ∈ s.dentries.live ∧ c ≠ s.root ∧ (s.dentries.get c).parent = d ∧
    ∃ name, (s.dentries.get c).name = some name ∧ dentryHash name = b

/-- Bucket `b` of `d` leads through the dentries `l`. -/
def Bucket (d : ℕ) (b : Fin 32) (l : List ℕ) : Prop :=
  IsChain 0 s.next ((s.dentries.get d).hashBucket b) l

structure Tree : Prop where
  null_notMem : 0 ∉ s.dentries.live
  root_mem : s.root ∈ s.dentries.live
  root_parent : (s.dentries.get s.root).parent = s.root
  parent_mem : ∀ d ∈ s.dentries.live, (s.dentries.get d).parent ∈ s.dentries.live
  named : ∀ d ∈ s.dentries.live, ∃ name, (s.dentries.get d).name = some name
  unmounted : ∀ d ∈ s.dentries.live, (s.dentries.get d).mount = 0
  buckets : ∀ d ∈ s.dentries.live, ∀ b, ∃ l, s.Bucket d b l ∧ ∀ c, c ∈ l ↔ s.IsEntry d b c
  /-- Following the parents leads to the root. -/
  ranked : ∃ rank : ℕ → ℕ, ∀ d ∈ s.dentries.live, d ≠ s.root →
    rank (s.dentries.get d).parent < rank d

/-- A path that fits the buffers, and starts somewhere. -/
structure PathOk (cwd : ℕ) (path : List Byte) : Prop where
  start : path.head? = some slash ∨ cwd ≠ 0
  segments : ∀ seg ∈ segments path, seg.length < pathBuffer
  parent : (parentDirname path).length < pathBuffer

variable {s} {s' : State} {d c p cwd : ℕ} {b : Fin 32} {l : List ℕ} {seg path name : List Byte}

theorem Tree.congr (h : Tree s) (hd : s'.dentries = s.dentries) (hr : s'.root = s.root) :
    Tree s' := by
  cases s'
  cases hd
  cases hr
  exact { h with }

theorem Tree.ne_zero (h : Tree s) (hd : d ∈ s.dentries.live) : d ≠ 0 := by
  rintro rfl
  exact h.null_notMem hd

theorem findChild_of_chain (hc : IsChain 0 s.next p l)
    (hnamed : ∀ c ∈ l, ∃ name, (s.dentries.get c).name = some name) {fuel : ℕ}
    (hlen : l.length < fuel) : ∃ r, s.findChild seg fuel p = some r ∧ (r = 0 ∨ r ∈ l) := by
  induction l generalizing p fuel with
  | nil =>
    cases fuel with
    | zero => exact absurd hlen (Nat.not_lt_zero _)
    | succ fuel => exact ⟨0, by rw [findChild, if_pos (isChain_nil.mp hc)], .inl rfl⟩
  | cons a l ih =>
    obtain ⟨rfl, hne, hc⟩ := hc
    obtain ⟨name, hname⟩ := hnamed p mem_cons_self
    cases fuel with
    | zero => exact absurd hlen (Nat.not_lt_zero _)
    | succ fuel =>
      simp only [findChild, if_neg hne, hname]
      by_cases hmatch : matchSeg name seg = true
      · exact ⟨p, by rw [if_pos hmatch], .inr mem_cons_self⟩
      · obtain ⟨r, hr, hmem⟩ := ih hc (fun c hc => hnamed c (mem_cons_of_mem _ hc))
          (Nat.lt_of_succ_lt_succ hlen)
        exact ⟨r, by rw [if_neg hmatch, hr], hmem.imp id (mem_cons_of_mem _)⟩

theorem Bucket.length_lt (hl : s.Bucket d b l) (hmem : ∀ c ∈ l, c ∈ s.dentries.live) :
    l.length < s.fuel := by
  rw [fuel, Nat.lt_succ_iff, ← toFinset_card_of_nodup (IsChain.nodup hl)]
  exact Finset.card_le_card fun c hc => hmem c (mem_toFinset.mp hc)

section

variable (h : Tree s)

include h

theorem Tree.findChild (hd : d ∈ s.dentries.live) (seg : List Byte) (b : Fin 32) :
    ∃ r, s.findChild seg s.fuel ((s.dentries.get d).hashBucket b) = some r ∧
      (r = 0 ∨ r ∈ s.dentries.live) := by
  obtain ⟨l, hl, hentries⟩ := h.buckets d hd b
  have hlive : ∀ c ∈ l, c ∈ s.dentries.live := fun c hc => ((hentries c).mp hc).1
  obtain ⟨r, hr, hmem⟩ := findChild_of_chain hl (fun c hc => h.named c (hlive c hc))
    (hl.length_lt hlive)
  exact ⟨r, hr, hmem.imp id (hlive r)⟩

theorem Tree.resolveSegment (hseg : seg.length < pathBuffer) (hd : d ∈ s.dentries.live) :
    ∃ r, s.resolveFrom d [seg] = some r ∧ (r = 0 ∨ r ∈ s.dentries.live) := by
  rw [resolveFrom_singleton, if_neg (not_or.mpr ⟨h.ne_zero hd, Nat.not_le.mpr hseg⟩)]
  split_ifs
  · exact ⟨d, rfl, .inr hd⟩
  · exact ⟨_, rfl, .inr (h.parent_mem d hd)⟩
  · exact ⟨d, rfl, .inr hd⟩
  · exact ⟨0, rfl, .inl rfl⟩
  · exact h.findChild hd seg _

theorem Tree.resolveFrom {segs : List (List Byte)}
    (hsegs : ∀ seg ∈ segs, seg.length < pathBuffer) (hd : d ∈ s.dentries.live) :
    ∃ r, s.resolveFrom d segs = some r ∧ (r = 0 ∨ r ∈ s.dentries.live) := by
  induction segs generalizing d with
  | nil => exact ⟨d, rfl, .inr hd⟩
  | cons seg segs ih =>
    rw [forall_mem_cons] at hsegs
    obtain ⟨n, hn, hmem⟩ := h.resolveSegment hsegs.1 hd
    rw [resolveFrom_cons, hn, bind_some]
    split_ifs with hz
    · exact ⟨0, rfl, .inl rfl⟩
    · exact ih hsegs.2 (hmem.resolve_left hz)

theorem Tree.vfsFollowMount (hd : d = 0 ∨ d ∈ s.dentries.live) : s.vfsFollowMount d = d := by
  rw [State.vfsFollowMount]
  rcases hd with rfl | hd
  · rfl
  · rw [if_neg (h.ne_zero hd), if_neg (not_not.mpr (h.unmounted d hd))]

theorem Tree.vfsLookup (hcwd : cwd = 0 ∨ cwd ∈ s.dentries.live)
    (hstart : path.head? = some slash ∨ cwd ≠ 0)
    (hsegs : ∀ seg ∈ Vfs.segments path, seg.length < pathBuffer) :
    ∃ r, s.vfsLookup cwd path = some r ∧ (r = 0 ∨ r ∈ s.dentries.live) := by
  have hdir : (if path.head? = some slash then s.root else cwd) ∈ s.dentries.live := by
    split_ifs with hhead
    · exact h.root_mem
    · exact hcwd.resolve_left (hstart.resolve_left hhead)
  obtain ⟨r, hr, hmem⟩ := h.resolveFrom hsegs hdir
  refine ⟨r, ?_, hmem⟩
  rw [State.vfsLookup, vfsResolvePath_eq, hr, map_some, h.vfsFollowMount hmem]

theorem Tree.resolveParentDir (hcwd : cwd = 0 ∨ cwd ∈ s.dentries.live)
    (hpath : PathOk cwd path) : ∃ parent name, s.resolveParentDir cwd path = some (parent, name) ∧
      (parent = 0 ∨ parent ∈ s.dentries.live) := by
  rw [State.resolveParentDir]
  by_cases hslash : slash ∉ path
  · exact ⟨cwd, path, if_pos hslash, hcwd⟩
  · obtain ⟨parent, hparent, hmem⟩ := h.vfsLookup hcwd (hpath.start.imp head_parentDirname id)
      fun seg hseg => (length_le_of_mem_segments hseg).trans_lt hpath.parent
    refine ⟨parent, basename path, ?_, hmem⟩
    rw [if_neg hslash]
    simp only [if_neg (Nat.not_le.mpr hpath.parent), hparent, map_some]

end

section Link

variable {parent child inode : ℕ} {i : Inode}

theorem dentries_link (o : Option (List Byte)) : (s.link parent child inode o b i).dentries =
    (s.dentries.put child (newDentry o inode parent ((s.dentries.get parent).hashBucket b))).modify
      parent fun d => d.setBucket b child := rfl

theorem get_link_child (hne : child ≠ parent) (o : Option (List Byte)) :
    (s.link parent child inode o b i).dentries.get child =
      newDentry o inode parent ((s.dentries.get parent).hashBucket b) := by
  rw [dentries_link, get_modify_of_ne hne, get_put_self]

theorem get_link_field {β : Type*} {g : Dentry → β} (hg : ∀ d b p, g (d.setBucket b p) = g d)
    (hd : d ≠ child) (o : Option (List Byte)) :
    g ((s.link parent child inode o b i).dentries.get d) = g (s.dentries.get d) := by
  rw [dentries_link, get_modify_field fun v => hg v b child, get_put_of_ne hd]

theorem next_link (hne : child ≠ parent) (o : Option (List Byte)) :
    (s.link parent child inode o b i).next =
      update s.next child ((s.dentries.get parent).hashBucket b) := by
  funext d
  rw [next]
  by_cases hd : d = child
  · rw [hd, get_link_child hne, update_self]
    rfl
  · rw [get_link_field (g := Dentry.hashNext) (fun _ _ _ => rfl) hd, update_of_ne hd, next]

theorem hashBucket_link (hd : d ≠ child) (hne : child ≠ parent) (o : Option (List Byte))
    (b' : Fin 32) : ((s.link parent child inode o b i).dentries.get d).hashBucket b' =
      if d = parent ∧ b' = b then child else (s.dentries.get d).hashBucket b' := by
  rw [dentries_link]
  by_cases hp : d = parent
  · subst hp
    rw [get_modify_self, get_put_of_ne hd]
    by_cases hb : b' = b
    · rw [if_pos ⟨rfl, hb⟩, hb]
      exact update_self ..
    · rw [if_neg fun h => hb h.2]
      exact update_of_ne hb ..
  · rw [if_neg fun h => hp h.1, get_modify_of_ne hp, get_put_of_ne hd]

theorem forall_link {T : Finset ℕ} {β : Type*} {g : Dentry → β} {P : β → Prop}
    (hg : ∀ d b p, g (d.setBucket b p) = g d) (hnew : child ∉ T) (hne : child ≠ parent)
    {o : Option (List Byte)} :
    (∀ d ∈ insert child T, P (g ((s.link parent child inode o b i).dentries.get d))) ↔
      P (g (newDentry o inode parent ((s.dentries.get parent).hashBucket b))) ∧
        ∀ d ∈ T, P (g (s.dentries.get d)) := by
  rw [Finset.forall_mem_insert, get_link_child hne]
  refine and_congr_right' (forall₂_congr fun d hd => ?_)
  rw [get_link_field hg fun heq : d = child => hnew (heq ▸ hd)]

theorem bucket_link {b' : Fin 32} (hne : child ≠ parent) (hzero : child ≠ 0) (hd : d ≠ child)
    (hl : s.Bucket d b' l) (hnew : child ∉ l) (o : Option (List Byte)) :
    (s.link parent child inode o b i).Bucket d b'
      (if d = parent ∧ b' = b then child :: l else l) := by
  rw [Bucket, next_link hne, hashBucket_link hd hne]
  split_ifs with hb
  · obtain ⟨rfl, rfl⟩ := hb
    exact IsChain.push hl hzero hnew
  · exact IsChain.write hl hnew _

theorem Tree.isEntry_link (h : Tree s) (hparent : parent ∈ s.dentries.live)
    (hchild : child ∉ s.dentries.live) {b' : Fin 32} :
    (s.link parent child inode (some name) (dentryHash name) i).IsEntry d b' c ↔
      s.IsEntry d b' c ∨ c = child ∧ d = parent ∧ b' = dentryHash name := by
  have hne : child ≠ parent := fun heq => hchild (heq ▸ hparent)
  by_cases hc : c = child
  · subst hc
    rw [IsEntry, get_link_child hne]
    constructor
    · rintro ⟨-, -, rfl, name', hname, rfl⟩
      cases hname
      exact .inr ⟨rfl, rfl, rfl⟩
    · rintro (hold | ⟨-, rfl, rfl⟩)
      · exact absurd hold.1 hchild
      · exact ⟨Finset.mem_insert_self .., fun heq => hchild (heq ▸ h.root_mem), rfl, name, rfl, rfl⟩
  · rw [IsEntry, get_link_field (g := Dentry.parent) (fun _ _ _ => rfl) hc,
      get_link_field (g := Dentry.name) (fun _ _ _ => rfl) hc, or_iff_left fun h => hc h.1]
    refine and_congr_left' ?_
    exact Finset.mem_insert.trans (or_iff_right hc)

theorem Tree.link (h : Tree s) (hparent : parent ∈ s.dentries.live)
    (hchild : child ∉ s.dentries.live) (hzero : child ≠ 0) :
    Tree (s.link parent child inode (some name) (dentryHash name) i) := by
  have hne : child ≠ parent := fun heq => hchild (heq ▸ hparent)
  have hold : ∀ d ∈ s.dentries.live, d ≠ child := fun d hd heq => hchild (heq ▸ hd)
  have hlive : ∀ d, d ∈ (s.link parent child inode (some name) (dentryHash name) i).dentries.live ↔
      d = child ∨ d ∈ s.dentries.live := fun d => Finset.mem_insert
  refine ⟨?_, ?_, ?_, ?_, ?_, ?_, ?_, ?_⟩
  · rw [hlive, not_or]
    exact ⟨hzero.symm, h.null_notMem⟩
  · exact (hlive _).mpr (.inr h.root_mem)
  · exact (get_link_field (g := Dentry.parent) (fun _ _ _ => rfl) (hold _ h.root_mem) _).trans
      h.root_parent
  · exact (forall_link (g := Dentry.parent) (P := (· ∈ insert child s.dentries.live))
      (fun _ _ _ => rfl) hchild hne).mpr ⟨Finset.mem_insert_of_mem hparent,
        fun d hd => Finset.mem_insert_of_mem (h.parent_mem d hd)⟩
  · exact (forall_link (g := Dentry.name) (P := fun o => ∃ name, o = some name)
      (fun _ _ _ => rfl) hchild hne).mpr ⟨⟨name, rfl⟩, h.named⟩
  · exact (forall_link (g := Dentry.mount) (P := (· = 0)) (fun _ _ _ => rfl) hchild hne).mpr
      ⟨rfl, h.unmounted⟩
  · intro d hd b'
    simp only [h.isEntry_link hparent hchild]
    rcases (hlive d).mp hd with rfl | hd
    · refine ⟨[], by rw [Bucket, get_link_child hne]; rfl, fun c => ?_⟩
      refine iff_of_false not_mem_nil ?_
      rintro (hentry | ⟨-, heq, -⟩)
      · exact hchild (hentry.2.2.1 ▸ h.parent_mem c hentry.1)
      · exact hne heq
    · obtain ⟨l, hl, hentries⟩ := h.buckets d hd b'
      have hnew : child ∉ l := fun hmem => hchild ((hentries child).mp hmem).1
      refine ⟨_, bucket_link hne hzero (hold d hd) hl hnew _, fun c => ?_⟩
      split_ifs with hb
      · rw [mem_cons, hentries, or_comm, and_iff_left hb]
      · rw [hentries, or_iff_left fun h => hb h.2]
  · obtain ⟨rank, hrank⟩ := h.ranked
    refine ⟨update rank child (rank parent + 1), fun d hd hroot => ?_⟩
    rcases (hlive d).mp hd with rfl | hd
    · rw [get_link_child hne, update_self]
      change update rank d (rank parent + 1) parent < _
      rw [update_of_ne hne.symm]
      exact Nat.lt_succ_self _
    · rw [get_link_field (g := Dentry.parent) (fun _ _ _ => rfl) (hold d hd),
        update_of_ne (hold _ (h.parent_mem d hd)), update_of_ne (hold d hd)]
      exact hrank d hd hroot

end Link

section Unhash

variable {parent target : ℕ} {s₁ : State}

theorem unhash_of_mem {l₁ l₂ : List ℕ} (hl : s.Bucket parent b (l₁ ++ target :: l₂))
    (hmem : ∀ c ∈ l₁ ++ target :: l₂, c ∈ s.dentries.live) : s.unhash parent target b =
      some { s with dentries := match l₁.getLast? with
        | none => s.dentries.modify parent fun d => d.setBucket b (s.next target)
        | some prev => s.dentries.modify prev fun d => d.setNext (s.next target) } := by
  rw [unhash]
  simp only [IsChain.search_of_mem hl (hl.length_lt hmem)]
  cases l₁.getLast? <;> rfl

theorem unhash_field {β : Type*} {g : Dentry → β} (hg : ∀ d b p, g (d.setBucket b p) = g d)
    (hg' : ∀ d p, g (d.setNext p) = g d) (h : s.unhash parent target b = some s₁) (d : ℕ) :
    g (s₁.dentries.get d) = g (s.dentries.get d) := by
  rw [unhash] at h
  split at h
  · cases h
  · cases h
    rfl
  · cases h
    exact get_modify_field (fun v => hg v b _) d
  · cases h
    exact get_modify_field (fun v => hg' v _) d

theorem next_setBucket (v : ℕ) :
    { s with dentries := s.dentries.modify p fun d => d.setBucket b v }.next = s.next := by
  funext d
  have hfield : ∀ d : Dentry, (d.setBucket b v).hashNext = d.hashNext := fun _ => rfl
  exact get_modify_field hfield d

theorem next_setNext (v : ℕ) :
    { s with dentries := s.dentries.modify p fun d => d.setNext v }.next = update s.next p v := by
  funext d
  rw [next]
  by_cases hd : d = p
  · rw [hd, update_self, get_modify_self]
    rfl
  · rw [update_of_ne hd, get_modify_of_ne hd, next]

theorem bucket_setNext (v : ℕ) :
    { s with dentries := s.dentries.modify p fun d => d.setNext v }.Bucket d b l ↔
      IsChain 0 (update s.next p v) ((s.dentries.get d).hashBucket b) l := by
  have hfield : ∀ d : Dentry, (d.setNext v).hashBucket = d.hashBucket := fun _ => rfl
  rw [Bucket, next_setNext]
  rw [get_modify_field hfield]

theorem bucket_setBucket {b' : Fin 32} (v : ℕ) :
    { s with dentries := s.dentries.modify p fun d => d.setBucket b v }.Bucket d b' l ↔
      IsChain 0 s.next (if d = p ∧ b' = b then v else (s.dentries.get d).hashBucket b') l := by
  rw [Bucket, next_setBucket]
  refine iff_of_eq (congrArg (IsChain 0 s.next · l) ?_)
  by_cases hp : d = p
  · subst hp
    rw [get_modify_self]
    by_cases hb : b' = b
    · rw [if_pos ⟨rfl, hb⟩, hb]
      exact update_self ..
    · rw [if_neg fun h => hb h.2]
      exact update_of_ne hb ..
  · rw [if_neg fun h => hp h.1, get_modify_of_ne hp]

theorem unhash_buckets (hl : s.Bucket parent b l) (hmem : ∀ c ∈ l, c ∈ s.dentries.live)
    (htarget : target ∈ l) :
    ∃ s₁, s.unhash parent target b = some s₁ ∧ ∀ d b' l', s.Bucket d b' l' →
      (¬ (d = parent ∧ b' = b) → ∀ c ∈ l, c ∉ l') → s₁.Bucket d b' (l'.erase target) := by
  obtain ⟨l₁, l₂, -, rfl, herase⟩ := exists_erase_eq htarget
  refine ⟨_, unhash_of_mem hl hmem, fun d b' l' hl' hapart => ?_⟩
  by_cases hdb : d = parent ∧ b' = b
  · obtain ⟨rfl, rfl⟩ := hdb
    rw [IsChain.unique hl' hl, herase]
    rcases eq_nil_or_concat l₁ with rfl | ⟨l₀, prev, rfl⟩
    · rw [getLast?_nil, bucket_setBucket, if_pos ⟨rfl, rfl⟩]
      exact hl.2.2
    · rw [concat_eq_append, getLast?_concat, bucket_setNext, append_assoc]
      rw [concat_eq_append, append_assoc] at hl
      exact IsChain.unlink hl
  · rw [erase_of_not_mem (hapart hdb target htarget)]
    rcases eq_nil_or_concat l₁ with rfl | ⟨l₀, prev, rfl⟩
    · rw [getLast?_nil, bucket_setBucket, if_neg hdb]
      exact hl'
    · rw [concat_eq_append, getLast?_concat, bucket_setNext]
      exact IsChain.write hl' (hapart hdb prev (by simp)) _

theorem Tree.unhash (h : Tree s) (htarget : target ∈ s.dentries.live) (hroot : target ≠ s.root)
    (hname : (s.dentries.get target).name = some name) :
    ∃ s₁, s.unhash (s.dentries.get target).parent target (dentryHash name) = some s₁ ∧
      ∀ d ∈ s.dentries.live, ∀ b, ∃ l, s₁.Bucket d b l ∧
        ∀ c, c ∈ l ↔ s.IsEntry d b c ∧ c ≠ target := by
  obtain ⟨l, hl, hentries⟩ := h.buckets _ (h.parent_mem target htarget) (dentryHash name)
  obtain ⟨s₁, hs₁, hbuckets⟩ := unhash_buckets hl (fun c hc => ((hentries c).mp hc).1)
    ((hentries target).mpr ⟨htarget, hroot, rfl, name, hname, rfl⟩)
  refine ⟨s₁, hs₁, fun d hd b => ?_⟩
  obtain ⟨l', hl', hentries'⟩ := h.buckets d hd b
  refine ⟨_, hbuckets d b l' hl' fun hdb c hc hc' => ?_, fun c => ?_⟩
  · -- a dentry is in one bucket only
    obtain ⟨-, -, hp, name₁, hname₁, hb⟩ := (hentries c).mp hc
    obtain ⟨-, -, hp', name₂, hname₂, hb'⟩ := (hentries' c).mp hc'
    cases hname₁.symm.trans hname₂
    exact hdb ⟨hp'.symm.trans hp, hb'.symm.trans hb⟩
  · rw [(IsChain.nodup hl').mem_erase_iff, hentries', and_comm]

theorem Tree.parent_ne (h : Tree s) (htarget : target ∈ s.dentries.live) (hroot : target ≠ s.root)
    (hempty : ∀ b, (s.dentries.get target).hashBucket b = 0) (hc : c ∈ s.dentries.live) :
    (s.dentries.get c).parent ≠ target := by
  intro hparent
  by_cases hcr : c = s.root
  · exact hroot (by rw [← hparent, hcr, h.root_parent])
  · obtain ⟨name, hname⟩ := h.named c hc
    obtain ⟨l, hl, hentries⟩ := h.buckets target htarget (dentryHash name)
    have hmem := (hentries c).mpr ⟨hc, hcr, hparent, name, hname, rfl⟩
    rw [Bucket, hempty] at hl
    rw [hl.unique (isChain_nil.mpr rfl)] at hmem
    exact not_mem_nil hmem

theorem Tree.remove (h : Tree s) (htarget : target ∈ s.dentries.live) (hroot : target ≠ s.root)
    (hempty : ∀ b, (s.dentries.get target).hashBucket b = 0)
    (hname : (s.dentries.get target).name = some name)
    (hunhash : s.unhash (s.dentries.get target).parent target (dentryHash name) = some s₁)
    (hd : s'.dentries = s₁.dentries.free target) (hr : s'.root = s₁.root) : Tree s' := by
  obtain ⟨s₂, hunhash₂, hbuckets⟩ := h.unhash htarget hroot hname
  cases hunhash.symm.trans hunhash₂
  obtain ⟨-, -, -, hroot₁, hlive₁⟩ := unhash_frame hunhash
  have hlive : ∀ d, d ∈ s'.dentries.live ↔ d ≠ target ∧ d ∈ s.dentries.live := by
    intro d
    rw [hd, live_free, Finset.mem_erase, hlive₁]
  have hget : s'.dentries.get = s₁.dentries.get := by rw [hd, get_free]
  have hparent : ∀ d, (s'.dentries.get d).parent = (s.dentries.get d).parent := fun d =>
    hget ▸ unhash_field (fun _ _ _ => rfl) (fun _ _ => rfl) hunhash d
  have hnames : ∀ d, (s'.dentries.get d).name = (s.dentries.get d).name := fun d =>
    hget ▸ unhash_field (fun _ _ _ => rfl) (fun _ _ => rfl) hunhash d
  have hmounts : ∀ d, (s'.dentries.get d).mount = (s.dentries.get d).mount := fun d =>
    hget ▸ unhash_field (fun _ _ _ => rfl) (fun _ _ => rfl) hunhash d
  have hbucket : s'.Bucket = s₁.Bucket := by
    funext d b l
    rw [Bucket, hget]
    congr 1
    funext c
    rw [next, next, hget]
  have hroots : s'.root = s.root := hr.trans hroot₁
  refine ⟨?_, ?_, ?_, ?_, ?_, ?_, ?_, ?_⟩
  · exact fun hz => h.null_notMem ((hlive 0).mp hz).2
  · exact hroots ▸ (hlive _).mpr ⟨hroot.symm, h.root_mem⟩
  · rw [hroots, hparent, h.root_parent]
  · intro d hd
    have hd := ((hlive d).mp hd).2
    rw [hparent, hlive]
    exact ⟨h.parent_ne htarget hroot hempty hd, h.parent_mem d hd⟩
  · exact fun d hd => hnames d ▸ h.named d ((hlive d).mp hd).2
  · exact fun d hd => (hmounts d).trans (h.unmounted d ((hlive d).mp hd).2)
  · intro d hd b
    obtain ⟨l, hl, hentries⟩ := hbuckets d ((hlive d).mp hd).2 b
    refine ⟨l, hbucket ▸ hl, fun c => ?_⟩
    rw [hentries, IsEntry, IsEntry, hlive, hparent, hnames, hroots]
    tauto
  · obtain ⟨rank, hrank⟩ := h.ranked
    refine ⟨rank, fun d hd hne => ?_⟩
    rw [hparent]
    exact hrank d ((hlive d).mp hd).2 (hroots ▸ hne)

end Unhash

end State

end Aevros.Vfs
