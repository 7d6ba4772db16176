import Mathlib.Data.Fin.Basic
import Mathlib.Data.Fintype.Card
import Mathlib.Tactic

/-! # Tables with keys

A table of `n` places, each free or taken under a key, scanned from the first place on. As long as
no key is taken twice the table is a finite map.
-/

namespace Keyed

open Option Function Finset Fin

variable {n : ℕ} {ε κ : Type*} (key : ε → Option κ)

def free (t : Fin n → ε) : Option (Fin n) := find? fun i => (key (t i)).isNone

def Unique (t : Fin n → ε) : Prop :=
  ∀ ⦃i j : Fin n⦄ ⦃k : κ⦄, key (t i) = some k → key (t j) = some k → i = j

def tag (taken : Bool) (name : κ) : Option κ := if taken then some name else none

@[simp] theorem tag_eq_some_iff {taken : Bool} {name k : κ} :
    tag taken name = some k ↔ taken = true ∧ name = k := by
  cases taken <;> simp [tag]

@[simp] theorem tag_eq_none_iff {taken : Bool} {name : κ} :
    tag taken name = none ↔ taken = false := by
  cases taken <;> simp [tag]

theorem free_tag (taken : ε → Bool) (name : ε → κ) (t : Fin n → ε) :
    (find? fun i => !taken (t i)) = free (fun e => tag (taken e) (name e)) t := by
  congr 1
  ext i
  cases h : taken (t i) <;> simp [tag, h]

variable {key} {t t' : Fin n → ε} {i j : Fin n} {k : κ} {x e : ε}

theorem key_of_free (h : free key t = some i) : key (t i) = none := by
  simpa using eq_true_of_find?_eq_some h

theorem free_eq_none_iff : free key t = none ↔ ∀ i, key (t i) ≠ none := by
  simp [free, isSome_iff_ne_none]

theorem Unique.update (h : Unique key t)
    (hx : ∀ k, key x = some k → key (t i) = some k ∨ ∀ j, key (t j) ≠ some k) :
    Unique key (update t i x) := by
  have hself : ∀ j k, key x = some k → key (t j) = some k → j = i := by
    intro j k hk hj
    rcases hx k hk with hi | hnone
    · exact h hj hi
    · exact absurd hj (hnone j)
  intro a b k ha hb
  rw [update_apply] at ha hb
  split_ifs at ha hb with hai hbi hbi
  · rw [hai, hbi]
  · rw [hai, hself b k ha hb]
  · rw [hbi, hself a k hb ha]
  · exact h ha hb

variable {live : ε → Prop}

/-- The entries that are live stay as they are, and the places of the others are free. -/
structure Shed (key : ε → Option κ) (live : ε → Prop) (t t' : Fin n → ε) : Prop where
  kept : ∀ i, live (t i) → t' i = t i
  gone : ∀ i, ¬live (t i) → key (t' i) = none

theorem Shed.key_iff (h : Shed key live t t') :
    key (t' i) = some k ↔ live (t i) ∧ key (t i) = some k := by
  by_cases hl : live (t i)
  · rw [h.kept i hl, and_iff_right hl]
  · rw [h.gone i hl]
    simp [hl]

theorem Shed.unique (h : Shed key live t t') (hu : Unique key t) : Unique key t' :=
  fun _ _ _ hi hj => hu (h.key_iff.mp hi).2 (h.key_iff.mp hj).2

variable [DecidableEq κ] (key)

def find (t : Fin n → ε) (k : κ) : Option (Fin n) := find? fun i => key (t i) = some k

def get (t : Fin n → ε) (k : κ) : Option ε := (find key t k).map t

/-- Where an entry under the key is written: over the old one, or to the first free place. -/
def place (t : Fin n → ε) (k : κ) : Option (Fin n) :=
  match find key t k with
  | some i => some i
  | none => free key t

variable {key}

theorem find_tag (taken : ε → Bool) (name : ε → κ) (t : Fin n → ε) (k : κ) :
    (find? fun i => taken (t i) && name (t i) = k) =
      find (fun e => tag (taken e) (name e)) t k := by
  unfold find
  simp

theorem key_of_find (h : find key t k = some i) : key (t i) = some k := by
  simpa using eq_true_of_find?_eq_some h

theorem find_eq_none_iff : find key t k = none ↔ ∀ i, key (t i) ≠ some k := by
  simp [find]

theorem get_eq_none_iff : get key t k = none ↔ ∀ i, key (t i) ≠ some k := by
  rw [get, map_eq_none_iff, find_eq_none_iff]

def keys (key : ε → Option κ) (t : Fin n → ε) : Finset κ :=
  univ.biUnion fun i => (key (t i)).toFinset

@[simp] theorem mem_keys : k ∈ keys key t ↔ ∃ i, key (t i) = some k := by
  simp [keys]

theorem isSome_get_iff : (get key t k).isSome ↔ k ∈ keys key t := by
  rw [← not_iff_not, not_isSome_iff_eq_none, get_eq_none_iff]
  simp

theorem place_cases (h : place key t k = some i) :
    key (t i) = some k ∨ key (t i) = none ∧ ∀ j, key (t j) ≠ some k := by
  unfold place at h
  split at h
  · rename_i j hj
    cases h
    exact .inl (key_of_find hj)
  · rename_i hnone
    exact .inr ⟨key_of_free h, find_eq_none_iff.mp hnone⟩

theorem place_taken (h : place key t k = some i) (hx : key x = some k) :
    ∀ k', key x = some k' → key (t i) = some k' ∨ ∀ j, key (t j) ≠ some k' := by
  rw [hx]
  rintro k' ⟨⟩
  exact (place_cases h).imp_right And.right

theorem place_getD_taken (hx : key x = some k) (k' : κ) (hk : key x = some k') :
    key (t ((place key t k).getD i)) = some k' ∨ ∀ j, key (t j) ≠ some k' := by
  cases hp : place key t k with
  | some j => exact place_taken hp hx k' hk
  | none =>
    cases hx.symm.trans hk
    refine .inr (find_eq_none_iff.mp ?_)
    unfold place at hp
    split at hp
    · cases hp
    · assumption

namespace Unique

section

variable (h : Unique key t)

include h

theorem find_eq_some_iff : find key t k = some i ↔ key (t i) = some k := by
  constructor
  · exact key_of_find
  · intro hi
    cases hf : find key t k with
    | none => exact absurd hi (find_eq_none_iff.mp hf i)
    | some j => rw [h (key_of_find hf) hi]

theorem get_eq_some_iff : get key t k = some e ↔ ∃ i, t i = e ∧ key e = some k := by
  rw [get, map_eq_some_iff]
  constructor
  · rintro ⟨i, hi, rfl⟩
    exact ⟨i, rfl, key_of_find hi⟩
  · rintro ⟨i, rfl, hi⟩
    exact ⟨i, h.find_eq_some_iff.mpr hi, rfl⟩

theorem get_update (hx : ∀ k, key x = some k → key (t i) = some k ∨ ∀ j, key (t j) ≠ some k) :
    get key (Function.update t i x) k =
      if key x = some k then some x else if key (t i) = some k then none else get key t k := by
  have hu := h.update hx
  split_ifs with hk hi
  · exact hu.get_eq_some_iff.mpr ⟨i, update_self .., hk⟩
  · rw [get_eq_none_iff]
    intro j hj
    rw [update_apply] at hj
    split_ifs at hj with hji
    · exact hk hj
    · exact hji (h hj hi)
  · ext e
    rw [hu.get_eq_some_iff, h.get_eq_some_iff]
    constructor
    · rintro ⟨j, rfl, hj⟩
      rw [update_apply] at hj ⊢
      split_ifs at hj ⊢ with hji
      · exact absurd hj hk
      · exact ⟨j, rfl, hj⟩
    · rintro ⟨j, rfl, hj⟩
      have hji : j ≠ i := by
        rintro rfl
        exact hi hj
      exact ⟨j, update_of_ne hji _ _, hj⟩

theorem card_keys : (keys key t).card = (univ.filter fun i => (key (t i)).isSome).card := by
  symm
  refine card_bij (fun i hi => (key (t i)).get (mem_filter.mp hi).2) ?_ ?_ ?_
  · intro i hi
    exact mem_keys.mpr ⟨i, (some_get _).symm⟩
  · intro i hi j hj hij
    have hi' := (some_get (mem_filter.mp hi).2).symm
    exact h hi' (by rw [hij, some_get])
  · intro k hk
    obtain ⟨i, hi⟩ := mem_keys.mp hk
    exact ⟨i, by simp [hi], by simp [hi]⟩

theorem card_keys_lt_iff : (keys key t).card < n ↔ ∃ i, key (t i) = none := by
  have hlt := card_lt_iff_ne_univ (univ.filter fun i => (key (t i)).isSome)
  rw [Fintype.card_fin] at hlt
  rw [h.card_keys, hlt]
  simp

theorem isSome_place_iff : (place key t k).isSome ↔ k ∈ keys key t ∨ (keys key t).card < n := by
  rw [h.card_keys_lt_iff, ← isSome_get_iff, get, place]
  cases find key t k with
  | some i => simp
  | none =>
    rw [isSome_iff_ne_none, Ne, free_eq_none_iff]
    simp

section

variable (hp : place key t k = some i)

include hp

theorem write (hx : key x = some k) :
    Unique key (Function.update t i x) := h.update (place_taken hp hx)

theorem get_write (hx : key x = some k) (k' : κ) :
    get key (Function.update t i x) k' = if k' = k then some x else get key t k' := by
  rw [h.get_update (place_taken hp hx), hx]
  by_cases hk : k' = k
  · simp [hk]
  · have hne : key (t i) ≠ some k' := by
      rcases place_cases hp with hi | ⟨hi, -⟩
      · rw [hi]
        exact fun he => hk (some.inj he).symm
      · simp [hi]
    simp [hk, Ne.symm hk, hne]

theorem keys_write (hx : key x = some k) :
    keys key (Function.update t i x) = insert k (keys key t) := by
  ext k'
  rw [mem_insert, ← isSome_get_iff, ← isSome_get_iff, h.get_write hp hx]
  split_ifs with hk <;> simp [hk]

variable (hx : key x = none ∨ key x = some k)

include hx

theorem overwrite : Unique key (Function.update t i x) := by
  obtain hx | hx := hx
  · refine h.update fun k' hk' => ?_
    rw [hx] at hk'
    cases hk'
  · exact h.write hp hx

theorem get_overwrite (k' : κ) : get key (Function.update t i x) k' =
      if k' = k then (if key x = some k then some x else none) else get key t k' := by
  obtain hx | hx := hx
  · have hno : ∀ k, key x ≠ some k := fun k => by simp [hx]
    rw [h.get_update fun k hk => absurd hk (hno k), if_neg (hno k'), if_neg (hno k)]
    obtain hi | ⟨hi, hnone⟩ := place_cases hp
    · simp only [hi, some.injEq, eq_comm]
    · have hk : get key t k = none := get_eq_none_iff.mpr hnone
      by_cases hkk : k' = k
      · simp [hkk, hk]
      · simp [hi, hkk]
  · rw [h.get_write hp hx, if_pos hx]

theorem keys_overwrite : keys key (Function.update t i x) ⊆ insert k (keys key t) := by
  intro k' hk'
  rw [← isSome_get_iff, h.get_overwrite hp hx] at hk'
  rw [mem_insert, ← isSome_get_iff]
  by_cases hk : k' = k
  · exact .inl hk
  · rw [if_neg hk] at hk'
    exact .inr hk'

end

end

end Unique

theorem Shed.keys_subset (h : Shed key live t t') : keys key t' ⊆ keys key t := by
  intro k hk
  obtain ⟨i, hi⟩ := mem_keys.mp hk
  exact mem_keys.mpr ⟨i, (h.key_iff.mp hi).2⟩

theorem Shed.get_eq_some_iff (h : Shed key live t t') (hu : Unique key t) :
    get key t' k = some e ↔ get key t k = some e ∧ live e := by
  rw [(h.unique hu).get_eq_some_iff, hu.get_eq_some_iff]
  constructor
  · rintro ⟨i, rfl, hk⟩
    obtain ⟨hl, hk⟩ := h.key_iff.mp hk
    rw [h.kept i hl]
    exact ⟨⟨i, rfl, hk⟩, hl⟩
  · rintro ⟨⟨i, rfl, hk⟩, hl⟩
    exact ⟨i, h.kept i hl, hk⟩

end Keyed
