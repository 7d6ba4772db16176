import Mathlib.Data.BitVec
import Mathlib.Tactic

/-! # Serial numbers

`ahead u a` is how far `a` lies past `u` in the direction of counting, and orders the numbers that
are compared with `u`. A scan finds the first of the least ones.
-/

namespace Serial

open BitVec List

section Ahead

variable {w n : ℕ} {u a b : BitVec w}

def ahead (u a : BitVec w) : ℕ := (a - u).toNat

theorem ahead_lt (u a : BitVec w) : ahead u a < 2 ^ w := (a - u).isLt

@[simp] theorem ahead_self (u : BitVec w) : ahead u u = 0 := by simp [ahead]

theorem add_ahead (u a : BitVec w) : u + BitVec.ofNat w (ahead u a) = a := by
  rw [ahead, ofNat_toNat, setWidth_eq, add_comm, sub_add_cancel]

theorem ahead_inj : ahead u a = ahead u b ↔ a = b := by
  constructor
  · intro h
    rw [← add_ahead u a, h, add_ahead]
  · rintro rfl
    rfl

theorem ahead_add_left (h : n < 2 ^ w) : ahead u (u + BitVec.ofNat w n) = n := by
  rw [ahead, add_comm, add_sub_cancel, toNat_ofNat, Nat.mod_eq_of_lt h]

theorem ahead_add (h : ahead u a + n < 2 ^ w) : ahead u (a + BitVec.ofNat w n) = ahead u a + n := by
  nth_rewrite 1 [← add_ahead u a]
  rw [add_assoc, ← ofNat_add, ahead_add_left h]

theorem ahead_sub (h : ahead u a ≤ ahead u b) : ahead a b = ahead u b - ahead u a := by
  rw [ahead, ← sub_sub_sub_cancel_right b a u, toNat_sub_of_le (le_def.mpr h)]
  rfl

end Ahead

section Earliest

variable {ι : Type*} (live : ι → Bool) (before : ι → ι → Bool)

/-- Keep the first live element, and every later one that comes before the one kept. -/
def earliest (l : List ι) : Option ι :=
  l.foldl (fun best i => if live i && best.all fun j => before i j then some i else best) none

variable {live before} {l : List ι}

theorem earliest_concat (l : List ι) (i : ι) : earliest live before (l ++ [i]) =
    if live i && (earliest live before l).all (fun j => before i j) then some i
    else earliest live before l := by
  simp [earliest]

theorem earliest_eq_none_iff : earliest live before l = none ↔ ∀ i ∈ l, live i = false := by
  induction l using reverseRecOn with
  | nil => simp [earliest]
  | append_singleton l i ih =>
    rw [earliest_concat]
    cases h : earliest live before l with
    | none =>
      have hl := ih.mp h
      cases hi : live i with
      | false =>
        simp only [mem_append, mem_singleton, Bool.false_and, Bool.false_eq_true,
          if_false, true_iff]
        rintro j (hj | rfl)
        · exact hl j hj
        · exact hi
      | true => simp [hi]
    | some j =>
      have hl : ¬ ∀ i ∈ l, live i = false := fun hl => by simp [ih.mpr hl] at h
      constructor
      · split_ifs <;> simp
      · exact fun hall => absurd (fun j hj => hall j (by simp [hj])) hl

/-- The first one of the live elements whose key is least. -/
def Leads [LE ι] (live : ι → Bool) (key : ι → ℕ) (l : List ι) (i : ι) : Prop :=
  i ∈ l ∧ live i = true ∧ ∀ j ∈ l, live j = true → key i < key j ∨ key i = key j ∧ i ≤ j

theorem earliest_leads [LinearOrder ι] {key : ι → ℕ}
    (hbefore : ∀ i j, live i = true → live j = true → (before i j = true ↔ key i < key j))
    (hl : l.Pairwise (· < ·)) {i : ι} (h : earliest live before l = some i) :
    Leads live key l i := by
  induction l using reverseRecOn generalizing i with
  | nil => simp [earliest] at h
  | append_singleton l k ih =>
    obtain ⟨hl', -, hlast⟩ := pairwise_append.mp hl
    rw [earliest_concat] at h
    split_ifs at h with hk
    · cases h
      rw [Bool.and_eq_true, Option.all_eq_true] at hk
      refine ⟨by simp, hk.1, fun j hj hlive => ?_⟩
      rcases mem_append.mp hj with hj | hj
      · cases hm : earliest live before l with
        | none => simp [earliest_eq_none_iff.mp hm j hj] at hlive
        | some m =>
          obtain ⟨-, hlm, hmin⟩ := ih hl' hm
          have hlt := (hbefore k m hk.1 hlm).mp (hk.2 m hm)
          rcases hmin j hj hlive with hj' | ⟨hj', -⟩
          · exact .inl (hlt.trans hj')
          · exact .inl (hj' ▸ hlt)
      · rw [mem_singleton.mp hj]
        exact .inr ⟨rfl, le_rfl⟩
    · obtain ⟨hi, hlive, hmin⟩ := ih hl' h
      refine ⟨by simp [hi], hlive, fun j hj hj' => ?_⟩
      rcases mem_append.mp hj with hj | hj
      · exact hmin j hj hj'
      · obtain rfl := mem_singleton.mp hj
        have hnot : ¬ key j < key i := by
          rw [← hbefore j i hj' hlive]
          simpa [hj', h] using hk
        rcases Nat.lt_or_eq_of_le (Nat.le_of_not_lt hnot) with hlt | heq
        · exact .inl hlt
        · exact .inr ⟨heq, (hlast i hi j (by simp)).le⟩

theorem Leads.unique [PartialOrder ι] {key : ι → ℕ} {i j : ι} (hi : Leads live key l i)
    (hj : Leads live key l j) : i = j := by
  rcases hi.2.2 j hj.1 hj.2.1 with h | ⟨h, hle⟩ <;>
    rcases hj.2.2 i hi.1 hi.2.1 with h' | ⟨h', hle'⟩
  · omega
  · omega
  · omega
  · exact le_antisymm hle hle'

theorem earliest_eq_some_iff [LinearOrder ι] (key : ι → ℕ)
    (hbefore : ∀ i j, live i = true → live j = true → (before i j = true ↔ key i < key j))
    (hl : l.Pairwise (· < ·)) {i : ι} : earliest live before l = some i ↔ Leads live key l i := by
  constructor
  · exact earliest_leads hbefore hl
  · intro h
    cases hm : earliest live before l with
    | none => exact absurd h.2.1 (by simp [earliest_eq_none_iff.mp hm i h.1])
    | some m => rw [(earliest_leads hbefore hl hm).unique h]

end Earliest

end Serial
