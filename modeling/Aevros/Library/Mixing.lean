import Mathlib.Data.BitVec
import Mathlib.Tactic

/-! # Mixing steps

Hash functions on words are chains of exclusive ors, multiplications by odd constants and
exclusive ors of a word with its own upper bits. None of these steps loses anything.
-/

namespace Mixing

open BitVec

variable {w n : ℕ} {x y : BitVec w}

theorem mul_left_inj_of_odd {c : BitVec w} (hc : c.toNat % 2 = 1) : x * c = y * c ↔ x = y := by
  constructor
  · intro h
    have hmod : x.toNat * c.toNat ≡ y.toNat * c.toNat [MOD 2 ^ w] := by
      simpa only [Nat.ModEq, BitVec.toNat_mul] using congrArg BitVec.toNat h
    have hcop : (2 ^ w).gcd c.toNat = 1 := by
      apply Nat.Coprime.pow_left
      exact Nat.coprime_two_left.mpr (Nat.odd_iff.mpr hc)
    apply eq_of_toNat_eq
    exact (hmod.cancel_right_of_coprime hcop).eq_of_lt_of_lt x.isLt y.isLt
  · rintro rfl
    rfl

theorem xor_ushiftRight_inj (hn : 0 < n) : x ^^^ (x >>> n) = y ^^^ (y >>> n) ↔ x = y := by
  constructor
  · intro h
    -- from the top bit down: bit `i + n` gives bit `i`
    have hbits : ∀ k i, w ≤ i + k → x.getLsbD i = y.getLsbD i := by
      intro k
      induction k with
      | zero =>
        intro i hi
        rw [getLsbD_of_ge x i hi, getLsbD_of_ge y i hi]
      | succ k ih =>
        intro i hi
        have hbit := congrArg (getLsbD · i) h
        simp only [getLsbD_xor, getLsbD_ushiftRight] at hbit
        rw [ih (n + i) (by omega)] at hbit
        exact Bool.xor_left_inj.mp hbit
    exact eq_of_getLsbD_eq fun i _ => hbits w i (by omega)
  · rintro rfl
    rfl

end Mixing
