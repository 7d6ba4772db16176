import Mathlib.Tactic

/-! # Unsigned comparisons under a shift

Adding a word to two numbers keeps their unsigned order exactly if it wraps for both or for neither.
Doubling reaches every number up to half of the range.
-/

namespace Aevros.Wrap

open BitVec

variable {w : ℕ} {d x y : BitVec w}

def Wraps (d x : BitVec w) : Prop := 2 ^ w ≤ x.toNat + d.toNat

/-- Adding `d` wraps around for both numbers or for neither. -/
def SameSide (d x y : BitVec w) : Prop := Wraps d x ↔ Wraps d y

instance (d x : BitVec w) : Decidable (Wraps d x) := inferInstanceAs (Decidable (_ ≤ _))

instance (d x y : BitVec w) : Decidable (SameSide d x y) := inferInstanceAs (Decidable (_ ↔ _))

theorem toNat_add_of_wraps (h : Wraps d x) : (x + d).toNat = x.toNat + d.toNat - 2 ^ w := by
  rw [toNat_add, Nat.mod_eq_sub_mod h, Nat.mod_eq_of_lt (by omega)]

theorem toNat_add_of_not_wraps (h : ¬ Wraps d x) : (x + d).toNat = x.toNat + d.toNat := by
  rw [toNat_add, Nat.mod_eq_of_lt (Nat.lt_of_not_le h)]

theorem SameSide.le_iff (h : SameSide d x y) : x + d ≤ y + d ↔ x ≤ y := by
  rw [le_def, le_def]
  by_cases hx : Wraps d x
  · have hy := h.mp hx
    rw [toNat_add_of_wraps hx, toNat_add_of_wraps hy]
    unfold Wraps at hx hy
    omega
  · have hy := fun hy => hx (h.mpr hy)
    rw [toNat_add_of_not_wraps hx, toNat_add_of_not_wraps hy]
    omega

theorem SameSide.lt_iff (h : SameSide d x y) : x + d < y + d ↔ x < y := by
  have hs : SameSide d y x := Iff.symm h
  rw [← BitVec.not_le, ← BitVec.not_le, hs.le_iff]

theorem toNat_ofNat_sub {m n : ℕ} (h : m ≤ n) :
    (BitVec.ofNat w n - BitVec.ofNat w m).toNat = (n - m) % 2 ^ w := by
  obtain ⟨k, rfl⟩ := Nat.exists_eq_add_of_le' h
  rw [ofNat_add, add_sub_cancel, toNat_ofNat, Nat.add_sub_cancel]

theorem toNat_ofNat_sub_le {m n : ℕ} (h : m ≤ n) :
    (BitVec.ofNat w n - BitVec.ofNat w m).toNat ≤ n - m :=
  (toNat_ofNat_sub h).trans_le (Nat.mod_le _ _)

/-- How often `x` is doubled until it is not below `size`, if `fuel` turns are enough. -/
def doublings (size : BitVec w) : ℕ → BitVec w → Option ℕ
  | 0, _ => none
  | fuel + 1, x => if x < size then (doublings size fuel (x * 2)).map (· + 1) else some 0

/-- What doubling makes of a power of two. -/
def Doubled (x : BitVec w) : Prop := x = 0 ∨ ∃ j < w, x.toNat = 2 ^ j

variable {size : BitVec w} {fuel n : ℕ}

theorem toNat_double : (x * 2).toNat = x.toNat * 2 % 2 ^ w := by simp [toNat_mul]

theorem Doubled.double (h : Doubled x) : Doubled (x * 2) := by
  obtain rfl | ⟨j, hj, hx⟩ := h
  · exact .inl zero_mul
  have hdouble : (x * 2).toNat = 2 ^ (j + 1) % 2 ^ w := by rw [toNat_double, hx, Nat.pow_succ]
  obtain rfl | hlt : j + 1 = w ∨ j + 1 < w := by omega
  · exact .inl (eq_of_toNat_eq (by simpa using hdouble))
  · rw [Nat.mod_eq_of_lt (Nat.pow_lt_pow_right Nat.one_lt_two hlt)] at hdouble
    exact .inr ⟨j + 1, hlt, hdouble⟩

theorem Doubled.doublings_eq_none (h : Doubled x) (hsize : 2 ^ w < 2 * size.toNat) (fuel : ℕ) :
    doublings size fuel x = none := by
  induction fuel generalizing x with
  | zero => rfl
  | succ fuel ih =>
    have hlt : x < size := by
      rw [lt_def]
      obtain rfl | ⟨j, hj, hx⟩ := h
      · simp; omega
      · have hle : 2 ^ (j + 1) ≤ 2 ^ w := Nat.pow_le_pow_right Nat.two_pos hj
        omega
    rw [doublings, if_pos hlt, ih h.double, Option.map_none]

theorem doublings_isLeast (hsize : 2 * size.toNat ≤ 2 ^ w)
    (hfuel : size.toNat ≤ x.toNat * 2 ^ fuel) : ∃ n, doublings size (fuel + 1) x = some n ∧
      IsLeast {n | size.toNat ≤ x.toNat * 2 ^ n} n := by
  have hfound : ∀ {x : BitVec w}, ¬ x < size → IsLeast {n | size.toNat ≤ x.toNat * 2 ^ n} 0 :=
    fun hle => ⟨by simpa [lt_def] using hle, fun _ _ => Nat.zero_le _⟩
  induction fuel generalizing x with
  | zero =>
    have hle : ¬ x < size := by simpa [lt_def] using hfuel
    exact ⟨0, by rw [doublings, if_neg hle], hfound hle⟩
  | succ fuel ih =>
    by_cases hlt : x < size
    · have hpow : ∀ n, (x * 2).toNat * 2 ^ n = x.toNat * 2 ^ (n + 1) := fun n => by
        have hx := lt_def.mp hlt
        rw [toNat_double, Nat.mod_eq_of_lt (by omega), Nat.mul_assoc, Nat.pow_succ']
      obtain ⟨n, hn, hleast⟩ := ih (hpow fuel ▸ hfuel)
      simp only [hpow] at hleast
      refine ⟨n + 1, by rw [doublings, if_pos hlt, hn, Option.map_some], hleast.1, ?_⟩
      rintro (_ | k) hk
      · exact absurd (by simpa [lt_def] using hk) (not_le.mpr hlt)
      · exact Nat.succ_le_succ (hleast.2 hk)
    · exact ⟨0, by rw [doublings, if_neg hlt], hfound hlt⟩

end Aevros.Wrap
