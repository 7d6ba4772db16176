import Mathlib.Tactic

/-! # Matching later items with earlier ones

Items come one after another and may claim an earlier one. If nobody is claimed twice, and who
claims is not claimed, everybody has at most one mate.
-/

structure Matching (ι : Type*) [LT ι] where
  claim : ι → Option ι
  lt : ∀ i k, claim i = some k → k < i
  inj : ∀ i j k, claim i = some k → claim j = some k → i = j
  unclaimed : ∀ i k, claim i = some k → claim k = none

namespace Matching

open Function

section Basic

variable {ι : Type*} [LT ι] {M : Matching ι} {i j k l : ι}

def empty : Matching ι where
  claim _ := none
  lt := by simp
  inj := by simp
  unclaimed := by simp

@[simp] theorem claim_empty (i : ι) : (empty : Matching ι).claim i = none := rfl

def Mates (M : Matching ι) (i k : ι) : Prop := M.claim i = some k ∨ M.claim k = some i

theorem claim_ne (h : M.claim i = some k) (j : ι) : M.claim j ≠ some i := by
  intro hj
  have hnone := M.unclaimed j i hj
  rw [h] at hnone
  cases hnone

end Basic

variable {ι : Type*} [Preorder ι] [DecidableEq ι] {M : Matching ι} {i j k l : ι}

/-- A new item claims an earlier one that neither claims nor is claimed. -/
def add (M : Matching ι) (i k : ι) (hlt : k < i) (hi : ∀ j, M.claim j ≠ some i)
    (hk : ∀ j, M.claim j ≠ some k) (hnone : M.claim k = none) : Matching ι where
  claim := update M.claim i (some k)
  lt := by
    intro a b hab
    rw [update_apply] at hab
    split_ifs at hab with ha
    · cases hab
      exact ha ▸ hlt
    · exact M.lt a b hab
  inj := by
    intro a b c ha hb
    rw [update_apply] at ha hb
    split_ifs at ha hb with hai hbi hbi
    · exact hai.trans hbi.symm
    · cases ha
      exact absurd hb (hk b)
    · cases hb
      exact absurd ha (hk a)
    · exact M.inj a b c ha hb
  unclaimed := by
    intro a b hab
    rw [update_apply] at hab
    split_ifs at hab with ha
    · cases hab
      rw [update_of_ne hlt.ne]
      exact hnone
    · have hb : b ≠ i := fun hb => hi a (hb ▸ hab)
      rw [update_of_ne hb]
      exact M.unclaimed a b hab

variable {hlt : k < i} {hi : ∀ j, M.claim j ≠ some i} {hk : ∀ j, M.claim j ≠ some k}
  {hnone : M.claim k = none}

theorem claim_add_self : (M.add i k hlt hi hk hnone).claim i = some k :=
  update_self ..

theorem claim_add_of_ne (h : j ≠ i) : (M.add i k hlt hi hk hnone).claim j = M.claim j :=
  update_of_ne h ..

theorem claim_add_eq_some_iff (hnew : M.claim i = none) :
    (M.add i k hlt hi hk hnone).claim j = some l ↔ j = i ∧ l = k ∨ M.claim j = some l := by
  by_cases hj : j = i
  · subst hj
    rw [claim_add_self, hnew]
    simp [eq_comm]
  · rw [claim_add_of_ne hj]
    simp [hj]

end Matching
