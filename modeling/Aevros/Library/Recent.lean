import Mathlib.Data.List.DropRight
import Mathlib.Tactic

/-! # Rings that keep the latest values

Value `i` is written into cell `i % cap`. The cells hold the last `cap` values, and reading them
from the oldest on gives the end of the list of all values.
-/

namespace Recent

open List Fin

variable {α : Type*} {cap : ℕ} [NeZero cap] {st : Fin cap → α} {xs : List α}

/-- Each of the last `cap` values stands in its cell. -/
def Holds (st : Fin cap → α) (xs : List α) : Prop :=
  ∀ i (hi : i < xs.length), xs.length ≤ i + cap → st (Fin.ofNat cap i) = xs[i]

theorem Holds.nil : Holds st [] := fun i hi => absurd hi (Nat.not_lt_zero i)

theorem Holds.push (h : Holds st xs) (x : α) :
    Holds (Function.update st (Fin.ofNat cap xs.length) x) (xs ++ [x]) := by
  intro i hi hcap
  rw [length_append, length_singleton] at hi hcap
  rcases Nat.lt_succ_iff_lt_or_eq.mp hi with hlt | rfl
  · have hne : Fin.ofNat cap i ≠ Fin.ofNat cap xs.length := by
      intro he
      have hmod : i ≡ xs.length [MOD cap] := congrArg val he
      have := Nat.le_of_dvd (by omega) ((Nat.modEq_iff_dvd' hlt.le).mp hmod)
      omega
    rw [Function.update_of_ne hne, h i hlt (by omega), getElem_append_left hlt]
  · rw [Function.update_self, getElem_concat_length rfl]

/-- The cell of the oldest value when `n` values have come. -/
def oldest (cap n : ℕ) : ℕ := if n < cap then 0 else n % cap

theorem ofNat_oldest_add (n k : ℕ) :
    Fin.ofNat cap (oldest cap n + k) = Fin.ofNat cap (n - cap + k) := by
  apply Fin.ext
  show (oldest cap n + k) % cap = (n - cap + k) % cap
  unfold oldest
  split
  · rw [Nat.sub_eq_zero_of_le (by omega)]
  · rw [Nat.mod_add_mod, show n + k = (n - cap + k) + cap by omega, Nat.add_mod_right]

theorem Holds.read (h : Holds st xs) :
    (List.range (min xs.length cap)).map (fun k => st (Fin.ofNat cap (oldest cap xs.length + k))) =
      xs.rtake cap := by
  apply ext_getElem
  · rw [length_map, length_range, rtake, length_drop]
    omega
  · intro k hk _
    rw [length_map, length_range] at hk
    simp only [List.rtake, getElem_map, getElem_range, ofNat_oldest_add, getElem_drop]
    exact h _ (by omega) (by omega)

theorem Holds.cell (h : Holds st xs) {c : Fin cap} (hc : c.val < xs.length) :
    ∃ i, ∃ hi : i < xs.length, xs.length ≤ i + cap ∧ Fin.ofNat cap i = c ∧ st c = xs[i] := by
  have hd := Nat.div_add_mod (xs.length - 1 - c.val) cap
  have hm := Nat.mod_lt (xs.length - 1 - c.val) (NeZero.pos cap)
  have hi : c.val + cap * ((xs.length - 1 - c.val) / cap) < xs.length := by omega
  have hcell : Fin.ofNat cap (c.val + cap * ((xs.length - 1 - c.val) / cap)) = c := by
    apply Fin.ext
    show (c.val + cap * _) % cap = c.val
    rw [Nat.add_mul_mod_self_left, Nat.mod_eq_of_lt c.isLt]
  exact ⟨_, hi, by omega, hcell, (congrArg st hcell).symm.trans (h _ hi (by omega))⟩

theorem Holds.mem_rtake_iff (h : Holds st xs) {x : α} :
    x ∈ xs.rtake cap ↔ ∃ c : Fin cap, c.val < xs.length ∧ st c = x := by
  rw [rtake, mem_drop_iff_getElem]
  constructor
  · rintro ⟨k, hk, rfl⟩
    refine ⟨Fin.ofNat cap (xs.length - cap + k), ?_, h _ (by omega) (by omega)⟩
    exact (Nat.mod_le _ _).trans_lt (by omega)
  · rintro ⟨c, hc, rfl⟩
    obtain ⟨i, hi, hkept, -, he⟩ := h.cell hc
    refine ⟨i - (xs.length - cap), by omega, ?_⟩
    rw [he]
    congr 1
    omega

omit [NeZero cap] in
theorem rtake_append_singleton (hcap : 0 < cap) (xs : List α) (x : α) : (xs ++ [x]).rtake cap =
      (if cap ≤ (xs.rtake cap).length then (xs.rtake cap).drop 1 else xs.rtake cap) ++ [x] := by
  have hlen : (xs.rtake cap).length = xs.length - (xs.length - cap) := length_drop
  unfold rtake at hlen ⊢
  rw [length_append, length_singleton, drop_append_of_le_length (by omega)]
  split_ifs with h
  · rw [drop_drop]
    congr 2
    omega
  · congr 2
    omega

end Recent
