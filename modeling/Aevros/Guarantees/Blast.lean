import Aevros.Vfs.Slots

/-! # Blast radius

`blast_radius` looks for other holders of a file on the whole ring, where it finds the target. So it
never says that a file would be freed.
-/

namespace Aevros.Vfs.State

open List

variable (s : State) (ring : List ℕ)

def otherHol (inode : ℕ) : ℕ :=
  (ring ×ˢ finRange 32).countP fun x => s.inodeOf x = some inode

/-- The open descriptors of the target that count as "would free" and as "safely shared". -/
def blastRadius (target : ℕ) : List (Fin 32) × List (Fin 32) :=
  ((finRange 32).filter fun fd => s.tasks.slot (target, fd) ≠ 0).partition fun fd =>
    s.otherHol ring (s.files.get (s.tasks.slot (target, fd))).inode = 0

variable {s ring} {t inode : ℕ} {fd : Fin 32}

theorem inodeOf_eq_some_iff {x : ℕ × Fin 32} : s.inodeOf x = some inode ↔
    s.tasks.slot x ≠ 0 ∧ (s.files.get (s.tasks.slot x)).inode = inode := by
  rw [inodeOf, fileOf]
  split_ifs with hx <;> simp [hx]

theorem inode_closeFd (p : ℕ) : ((closeFd t s fd).files.get p).inode = (s.files.get p).inode := by
  rw [closeFd]
  split_ifs
  · rfl
  · unfold closeSlot
    dsimp only
    split_ifs
    · exact Cells.get_modify_field (f := File.dropRef) (g := File.inode) (fun _ => rfl) p
    · rfl

theorem inodeOf_sysExit {task : Task} (htask : s.tasks.get t = some task) {x : ℕ × Fin 32} :
    (s.sysExit t).inodeOf x = some inode ↔ x.1 ≠ t ∧ s.inodeOf x = some inode := by
  have hturn : ∀ s₁ task fd, (∀ p, (s₁.files.get p).inode = (s.files.get p).inode) →
      s₁.tasks.get t = some task → ∀ p, ((closeFd t s₁ fd).files.get p).inode =
        (s.files.get p).inode := fun s₁ _ fd h _ p => (inode_closeFd p).trans (h p)
  obtain ⟨hfiles, -, hslot⟩ := closeFds_invariant (finRange 32) hturn (fun _ => rfl) htask
  rw [inodeOf_eq_some_iff, inodeOf_eq_some_iff, sysExit, Tasks.slot_remove, hslot, hfiles]
  by_cases hx : x.1 = t
  · simp [hx]
  · simp [hx]

theorem blastRadius_spec (ht : t ∈ ring) (hopen : s.inodeOf (t, fd) = some inode) :
    fd ∉ (s.blastRadius ring t).1 ∧ fd ∈ (s.blastRadius ring t).2 := by
  have hfound : 0 < s.otherHol ring inode := by
    refine countP_pos_iff.mpr ⟨(t, fd), ?_, by simpa using hopen⟩
    exact mem_product.mpr ⟨ht, mem_finRange fd⟩
  obtain ⟨hslot, rfl⟩ := inodeOf_eq_some_iff.mp hopen
  simp [blastRadius, hslot, hfound.ne']

/-- The forecast is right exactly if other tasks hold all the files of the target. -/
theorem blast_predicts_exit_iff (s : State) (ring : List ℕ) (target : ℕ)
    (hring : ∀ t, t ∈ ring ↔ s.tasks.get t ≠ none) (htarget : target ∈ ring) :
    (∀ fd inode, s.inodeOf (target, fd) = some inode → (fd ∈ (s.blastRadius ring target).1 ↔
        ∀ t ∈ ring, t ≠ target → ∀ k, s.inodeOf (t, k) ≠ some inode) ∧
      (fd ∈ (s.blastRadius ring target).1 ↔ ∀ x, (s.sysExit target).inodeOf x ≠ some inode) ∧
      (fd ∈ (s.blastRadius ring target).2 ↔ fd ∉ (s.blastRadius ring target).1)) ↔
    ∀ fd inode, s.inodeOf (target, fd) = some inode →
      ∃ t ∈ ring, t ≠ target ∧ ∃ k, s.inodeOf (t, k) = some inode := by
  obtain ⟨task, htask⟩ := Option.ne_none_iff_exists'.mp ((hring target).mp htarget)
  refine forall₃_congr fun fd inode hopen => ?_
  obtain ⟨hnot, hshared⟩ := blastRadius_spec htarget hopen
  have hleft : (∃ x, (s.sysExit target).inodeOf x = some inode) ↔
      ∃ t ∈ ring, t ≠ target ∧ ∃ k, s.inodeOf (t, k) = some inode := by
    simp only [inodeOf_sysExit htask]
    constructor
    · rintro ⟨⟨t, k⟩, hne, hk⟩
      refine ⟨t, (hring t).mpr fun hnone => ?_, hne, k, hk⟩
      exact (inodeOf_eq_some_iff.mp hk).1 (by rw [Tasks.slot, hnone]; rfl)
    · rintro ⟨t, -, hne, k, hk⟩
      exact ⟨(t, k), hne, hk⟩
  constructor
  · rintro ⟨-, hexit, -⟩
    rw [← hleft]
    by_contra hnone
    exact hnot (hexit.mpr fun x hx => hnone ⟨x, hx⟩)
  · intro hheld
    obtain ⟨x, hx⟩ := hleft.mpr hheld
    obtain ⟨t, ht, hne, k, hk⟩ := hheld
    exact ⟨iff_of_false hnot fun h => h t ht hne k hk, iff_of_false hnot fun h => h x hx,
      iff_of_true hshared hnot⟩

theorem child_shares_files :
    let s := step (boot true) ⟨0, .create true, .plenty 9 9 9⟩
    ∀ fd inode, s.inodeOf (0, fd) = some inode → fd ∉ (s.blastRadius [0, 1] 0).1 ∧
      (¬ ∀ x, (s.sysExit 0).inodeOf x ≠ some inode) ∧ fd ∈ (s.blastRadius [0, 1] 0).2 := by
  intro s fd inode hopen
  have hsame : ∀ fd, s.inodeOf (1, fd) = s.inodeOf (0, fd) := by decide +kernel
  have hring : ∀ t, t ∈ [0, 1] ↔ s.tasks.get t ≠ none := by
    rintro (_ | _ | t)
    · decide
    · decide
    · exact iff_of_false (by simp) (not_not_intro rfl)
  obtain ⟨hothers, hexit, hshared⟩ := (blast_predicts_exit_iff s [0, 1] 0 hring (by decide)).mpr
    (fun fd inode hopen => ⟨1, by decide, by decide, fd, (hsame fd).trans hopen⟩) fd inode hopen
  have hnot : fd ∉ (s.blastRadius [0, 1] 0).1 := fun hfd =>
    hothers.mp hfd 1 (by decide) (by decide) fd ((hsame fd).trans hopen)
  exact ⟨hnot, fun hnone => hnot (hexit.mpr hnone), hshared.mpr hnot⟩

theorem lone_shell_miscounted :
    (boot true).inodeOf (0, 0) = some 3 ∧ ((boot true).blastRadius [0] 0).1 = [] ∧
      ∀ x, ((boot true).sysExit 0).inodeOf x ≠ some 3 := by
  refine ⟨by decide, by decide, fun x hx => ?_⟩
  obtain ⟨hne, hx⟩ := (inodeOf_sysExit rfl).mp hx
  refine (inodeOf_eq_some_iff.mp hx).1 ?_
  change ((if x.1 = 0 then _ else none : Option Task).map _).getD 0 = 0
  rw [if_neg hne]
  rfl

end Aevros.Vfs.State
