import Mathlib.Data.Finset.Card
import Mathlib.Data.List.TakeWhile
import Mathlib.Tactic

/-! # First come, first served

Guests are admitted to a set of at most `n` members while there is room. The members are the guests
before whose first arrival fewer than `n` others arrived.
-/

namespace FirstCome

open List

variable {κ : Type*} [DecidableEq κ] {n : ℕ} {K : Finset κ} {L : List κ} {x y : κ}

def offer (n : ℕ) (K : Finset κ) (y : κ) : Finset κ :=
  if y ∈ K ∨ K.card < n then insert y K else K

def before (x : κ) (L : List κ) : Finset κ := (L.takeWhile (· ≠ x)).toFinset

/-- `K` are the members after the guests `L`. -/
structure Served (n : ℕ) (K : Finset κ) (L : List κ) : Prop where
  mem_iff : ∀ x, x ∈ K ↔ x ∈ L ∧ (before x L).card < n
  card_eq : K.card = min n L.toFinset.card

theorem before_subset (x : κ) (L : List κ) : before x L ⊆ L.toFinset := by
  intro y hy
  rw [mem_toFinset]
  exact (L.takeWhile_sublist _).subset (mem_toFinset.mp hy)

theorem before_of_notMem (h : x ∉ L) : before x L = L.toFinset := by
  unfold before
  rw [takeWhile_eq_self_iff.mpr]
  intro y hy
  rw [decide_eq_true_eq]
  rintro rfl
  exact h hy

theorem before_append_cons (x : κ) (L M : List κ) : before x (L ++ x :: M) = before x L := by
  unfold before
  induction L with
  | nil => simp
  | cons y L ih =>
    by_cases hy : y = x
    · simp [hy]
    · rw [cons_append, takeWhile_cons_of_pos (by simpa using hy),
        takeWhile_cons_of_pos (by simpa using hy), toFinset_cons, toFinset_cons, ih]

theorem before_snoc (h : x ∈ L) (y : κ) : before x (L ++ [y]) = before x L := by
  obtain ⟨L₁, L₂, rfl⟩ := append_of_mem h
  rw [append_assoc, cons_append, before_append_cons, before_append_cons]

namespace Served

theorem nil : Served n (∅ : Finset κ) [] := ⟨by simp, by simp⟩

variable (h : Served n K L)

include h

theorem room_iff (y : κ) : (y ∈ K ∨ K.card < n) ↔ (before y L).card < n := by
  by_cases hy : y ∈ L
  · constructor
    · rintro (hK | hn)
      · exact ((h.mem_iff y).mp hK).2
      · have hcard := h.card_eq
        have hle := Finset.card_le_card (before_subset y L)
        omega
    · exact fun hn => .inl ((h.mem_iff y).mpr ⟨hy, hn⟩)
  · have hK : y ∉ K := fun hK => hy ((h.mem_iff y).mp hK).1
    have hcard := h.card_eq
    rw [before_of_notMem hy, or_iff_right hK]
    omega

theorem again (hy : y ∈ L) : Served n (offer n K y) (L ++ [y]) := by
  have hsame : offer n K y = K := by
    unfold offer
    split_ifs with hroom
    · exact Finset.insert_eq_of_mem ((h.mem_iff y).mpr ⟨hy, (h.room_iff y).mp hroom⟩)
    · rfl
  have hmem : ∀ x, x ∈ L ++ [y] ↔ x ∈ L := by
    intro x
    rw [mem_append, mem_singleton]
    exact or_iff_left_of_imp fun hx => hx ▸ hy
  rw [hsame]
  refine ⟨fun x => ?_, ?_⟩
  · rw [h.mem_iff, hmem]
    exact and_congr_right fun hx => by rw [before_snoc hx]
  · have hset : (L ++ [y]).toFinset = L.toFinset := by
      ext x
      rw [mem_toFinset, mem_toFinset, hmem]
    rw [hset, h.card_eq]

theorem new (hy : y ∉ L) : Served n (offer n K y) (L ++ [y]) := by
  have hK : y ∉ K := fun hK => hy ((h.mem_iff y).mp hK).1
  have hself : before y (L ++ [y]) = L.toFinset := by
    rw [before_append_cons, before_of_notMem hy]
  have hset : (L ++ [y]).toFinset.card = L.toFinset.card + 1 := by
    rw [toFinset_append, toFinset_cons, toFinset_nil, insert_empty_eq,
      Finset.union_singleton, Finset.card_insert_of_notMem (by simpa using hy)]
  have hroom := h.room_iff y
  rw [before_of_notMem hy] at hroom
  have hcard := h.card_eq
  refine ⟨fun x => ?_, ?_⟩
  · by_cases hxy : x = y
    · subst hxy
      rw [hself, ← hroom, FirstCome.offer]
      split_ifs with hr
      · simp [hr]
      · exact iff_of_false hK fun hc => hr hc.2
    · have hK' : x ∈ FirstCome.offer n K y ↔ x ∈ K := by
        unfold FirstCome.offer
        split_ifs
        · simp [hxy]
        · rfl
      have hL : x ∈ L ++ [y] ↔ x ∈ L := by simp [hxy]
      rw [hK', hL, h.mem_iff]
      exact and_congr_right fun hx => by rw [before_snoc hx]
  · rw [FirstCome.offer]
    split_ifs with hr
    · rw [Finset.card_insert_of_notMem hK]
      have := hroom.mp hr
      omega
    · omega

theorem offer (y : κ) : Served n (offer n K y) (L ++ [y]) := by
  by_cases hy : y ∈ L
  · exact h.again hy
  · exact h.new hy

end Served

end FirstCome
