import Mathlib.Data.Fin.Basic
import Mathlib.Data.Fintype.Card
import Mathlib.Tactic

/-! # Fixed-size tables

A table of `n` entries is scanned for the first entry with a property and its
entries with a property are counted. The lemmas say how the count changes when
one entry is overwritten.
-/

namespace Table

open Function Finset Fin

variable {n : ℕ} {β : Type*}

theorem countP_eq_card (p : Fin n → Bool) :
    Fin.countP p = (Finset.univ.filter fun i => p i = true).card := by
  induction n with
  | zero => simp [Fin.countP]
  | succ n ih =>
    rw [countP_succ, ih, card_filter_univ_succ]
    cases hp : p 0 <;> simp [Nat.add_comm]

variable (q : β → Bool) (t : Fin n → β)

theorem countP_update_le (i : Fin n) (x : β) :
    Fin.countP (fun j => q (update t i x j)) ≤ Fin.countP (fun j => q (t j)) + 1 := by
  rw [countP_eq_card, countP_eq_card]
  refine (card_le_card ?_).trans (card_insert_le i _)
  intro j hj
  by_cases hji : j = i
  · simp [hji]
  · simpa [hji] using hj

theorem countP_update_le_of_imp (i : Fin n) (x : β) (h : q x = true → q (t i) = true) :
    Fin.countP (fun j => q (update t i x j)) ≤ Fin.countP (fun j => q (t j)) := by
  rw [countP_eq_card, countP_eq_card]
  refine card_le_card ?_
  intro j hj
  by_cases hji : j = i
  · subst hji
    simpa using h (by simpa using hj)
  · simpa [hji] using hj

theorem countP_update_of_new (i : Fin n) (x : β) (hi : q (t i) = false) (hx : q x = true) :
    Fin.countP (fun j => q (update t i x j)) = Fin.countP (fun j => q (t j)) + 1 := by
  rw [countP_eq_card, countP_eq_card]
  have hset : (univ.filter fun j => q (update t i x j) = true) =
      insert i (univ.filter fun j => q (t j) = true) := by
    ext j
    by_cases hji : j = i
    · simp [hji, hx]
    · simp [hji]
  rw [hset, card_insert_of_notMem (by simp [hi])]

end Table
