import Mathlib.Data.List.Basic

/-! # Delivering a stream from its slices

A receiver appends the slices that start where the last one ended. What was read and what is queued
is an initial part of the list that was cut.
-/

namespace Aevros.Slices

open List

variable {α : Type*} {S d out queue : List α} {n m : ℕ}

def Slice (S : List α) (n : ℕ) (d : List α) : Prop := n ≤ S.length ∧ d <+: S.drop n

theorem Slice.length_le (h : Slice S n d) : n + d.length ≤ S.length := by
  have hl := h.2.length_le
  rw [length_drop] at hl
  have := h.1
  omega

theorem Slice.take_append (h : Slice S n d) : S.take n ++ d = S.take (n + d.length) := by
  rw [take_add, ← prefix_iff_eq_take.mp h.2]

/-- The first `n` elements were delivered: `out` was read and `queue` is still to be read. -/
structure Progress (S out queue : List α) (n : ℕ) : Prop where
  le : n ≤ S.length
  eq : out ++ queue = S.take n

namespace Progress

theorem start (S : List α) : Progress S [] [] 0 := ⟨Nat.zero_le _, by simp⟩

section

variable (h : Progress S out queue n)

include h

theorem deliver (hd : Slice S n d) : Progress S out (queue ++ d) (n + d.length) :=
  ⟨hd.length_le, by rw [← append_assoc, h.eq, hd.take_append]⟩

theorem read (m : ℕ) : Progress S (out ++ queue.take m) (queue.drop m) n :=
  ⟨h.le, by rw [append_assoc, take_append_drop, h.eq]⟩

theorem append_isPrefix : out ++ queue <+: S :=
  h.eq ▸ take_prefix n S

theorem isPrefix : out <+: S :=
  (prefix_append out queue).trans h.append_isPrefix

theorem length_add : out.length + queue.length = n := by
  rw [← length_append, h.eq, length_take, Nat.min_eq_left h.le]

end

end Progress

end Aevros.Slices
