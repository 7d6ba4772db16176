import Mathlib.Data.List.Perm.Subperm
import Mathlib.Tactic

/-! # A bounded stack of distinct items

Items are taken from the top and given back to it. As long as they are from one list that is not
longer than the bound, nothing that is given back is lost.
-/

namespace Pool

open List

variable {α : Type*} [DecidableEq α]

def give (bound : ℕ) (l : List α) (a : α) : List α :=
  if a ∈ l then l else if bound ≤ l.length then l else a :: l

structure Of (L l : List α) : Prop where
  nodup : l.Nodup
  subset : l ⊆ L

variable {bound : ℕ} {L l as : List α} {a x : α}

omit [DecidableEq α] in
theorem Of.length_lt (h : Of L l) (ha : a ∈ L) (hnot : a ∉ l) : l.length < L.length := by
  have hnodup : (a :: l).Nodup := nodup_cons.mpr ⟨hnot, h.nodup⟩
  have hsub : a :: l ⊆ L := cons_subset.mpr ⟨ha, h.subset⟩
  exact (subperm_of_subset hnodup hsub).length_le

theorem Of.give (h : Of L l) (hL : L.length ≤ bound) (ha : a ∈ L) :
    Of L (give bound l a) ∧ ∀ x, x ∈ Pool.give bound l a ↔ x = a ∨ x ∈ l := by
  unfold Pool.give
  by_cases hmem : a ∈ l
  · rw [if_pos hmem]
    refine ⟨h, fun x => ⟨Or.inr, ?_⟩⟩
    rintro (rfl | hx)
    · exact hmem
    · exact hx
  · have hlt := h.length_lt ha hmem
    rw [if_neg hmem, if_neg (by omega)]
    exact ⟨⟨nodup_cons.mpr ⟨hmem, h.nodup⟩, cons_subset.mpr ⟨ha, h.subset⟩⟩, fun x => mem_cons⟩

theorem Of.foldl_give (h : Of L l) (hL : L.length ≤ bound) (has : ∀ a ∈ as, a ∈ L) :
    Of L (as.foldl (Pool.give bound) l) ∧
      ∀ x, x ∈ as.foldl (Pool.give bound) l ↔ x ∈ as ∨ x ∈ l := by
  induction as generalizing l with
  | nil => exact ⟨h, by simp⟩
  | cons a as ih =>
    obtain ⟨hof, hmem⟩ := h.give hL (has a mem_cons_self)
    obtain ⟨hof', hmem'⟩ := ih hof fun b hb => has b (mem_cons_of_mem _ hb)
    refine ⟨hof', fun x => ?_⟩
    rw [foldl_cons, hmem', hmem, mem_cons]
    tauto

end Pool
