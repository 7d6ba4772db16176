import Aevros.Memory.Arena
import Aevros.Memory.Buddy

/-! # Where the blocks lie

A block of pages lies at 4096 times its first page. In terms of blocks the address
arithmetic of the allocator is cutting in halves, going to the buddy and going to the
parent.
-/

namespace Aevros.Memory

open BitVec Dyadic

def address (b : Block) : Word := BitVec.ofNat 32 (b.index * 2 ^ (b.order + 12))

variable {b b' : Block} {o i : ℕ}

theorem first_mul_page (b : Block) : 4096 * b.first = b.index * 2 ^ (b.order + 12) := by
  rw [Block.first, pow_add, Nat.mul_comm, Nat.mul_assoc]
  rfl

theorem toNat_address (h : 4096 * b.first < 2 ^ 32) : (address b).toNat = 4096 * b.first := by
  rw [address, toNat_ofNat, ← first_mul_page, Nat.mod_eq_of_lt h]

theorem blockBytes_eq (o : ℕ) : blockBytes o = twoPow 32 (o + 12) := by
  rw [blockBytes, show (4096#32) = twoPow 32 12 by rfl, mul_twoPow_eq_shiftLeft,
    ← shiftLeft_add, twoPow_eq]

theorem toNat_blockBytes (ho : o ≤ maxOrder) : (blockBytes o).toNat = 2 ^ (o + 12) := by
  have ho' : o ≤ 16 := ho
  have hlt : 2 ^ (o + 12) < 2 ^ 32 := Nat.pow_lt_pow_right (by omega) (by omega)
  rw [blockBytes_eq, toNat_twoPow, Nat.mod_eq_of_lt hlt]

theorem dvd_toNat_address (b : Block) : 4096 ∣ (address b).toNat := by
  rw [address, toNat_ofNat, ← first_mul_page]
  omega

theorem first_eq_of_address_eq (h : 4096 * b.first < 2 ^ 32) (h' : 4096 * b'.first < 2 ^ 32)
    (he : address b = address b') : b.first = b'.first := by
  have := congrArg BitVec.toNat he
  rw [toNat_address h, toNat_address h'] at this
  omega

theorem address_lower (o i : ℕ) : address ⟨o + 1, i⟩ = address ⟨o, 2 * i⟩ := by
  have hindex : i * 2 ^ (o + 1 + 12) = 2 * i * 2 ^ (o + 12) := by ring
  exact congrArg (BitVec.ofNat 32) hindex

theorem address_upper (o i : ℕ) : address ⟨o + 1, i⟩ + blockBytes o = address ⟨o, 2 * i + 1⟩ := by
  have hsize : blockBytes o = BitVec.ofNat 32 (2 ^ (o + 12)) := by
    apply eq_of_toNat_eq
    rw [blockBytes_eq, toNat_twoPow, toNat_ofNat]
  have hindex : i * 2 ^ (o + 1 + 12) + 2 ^ (o + 12) = (2 * i + 1) * 2 ^ (o + 12) := by ring
  rw [hsize, address, ← ofNat_add]
  exact congrArg (BitVec.ofNat 32) hindex

theorem getLsbD_address (b : Block) (j : ℕ) : (address b).getLsbD j =
      (decide (j < 32) && (decide (b.order + 12 ≤ j) && b.index.testBit (j - (b.order + 12)))) := by
  rw [address, getLsbD_ofNat, Nat.testBit_mul_two_pow]

theorem address_buddy (b : Block) : address b ^^^ blockBytes b.order = address b.buddy := by
  apply eq_of_getLsbD_eq
  intro j hj
  rw [getLsbD_xor, getLsbD_address, getLsbD_address, blockBytes_eq]
  simp only [Block.buddy, Nat.testBit_xor]
  rcases Nat.lt_trichotomy j (b.order + 12) with h | h | h
  · simp [show ¬ b.order + 12 ≤ j by omega, show b.order + 12 ≠ j by omega]
  · subst h
    simp [hj]
  · have hbit : Nat.testBit 1 (j - (b.order + 12)) = false := by
      rw [Bool.eq_false_iff]
      intro hone
      have := Nat.testBit_one_eq_true_iff_self_eq_zero.mp hone
      omega
    simp [hbit, show b.order + 12 ≤ j by omega, show b.order + 12 ≠ j by omega]

theorem address_parent (b : Block) : address b &&& ~~~ blockBytes b.order = address b.parent := by
  apply eq_of_getLsbD_eq
  intro j hj
  rw [getLsbD_and, getLsbD_not, getLsbD_address, getLsbD_address, blockBytes_eq]
  simp only [Block.parent, Nat.testBit_div_two, hj]
  rcases Nat.lt_trichotomy j (b.order + 12) with h | h | h
  · simp [show ¬ b.order + 12 ≤ j by omega, show ¬ b.order + 1 + 12 ≤ j by omega]
  · subst h
    simp [hj]
  · simp [show b.order + 12 ≤ j by omega, show b.order + 12 ≠ j by omega,
      show b.order + 1 + 12 ≤ j by omega,
      show j - (b.order + 1 + 12) + 1 = j - (b.order + 12) by omega]

theorem getLsbD_mask (ho : o ≤ maxOrder) (j : ℕ) :
    (blockBytes o - 1).getLsbD j = decide (j < o + 12) := by
  have ho' : o ≤ 16 := ho
  have hmask : blockBytes o - 1 = BitVec.ofNat 32 (2 ^ (o + 12) - 1) := by
    have hle : 1 ≤ 2 ^ (o + 12) := Nat.one_le_two_pow
    have hlt : 2 ^ (o + 12) < 2 ^ 32 := Nat.pow_lt_pow_right (by omega) (by omega)
    apply eq_of_toNat_eq
    rw [toNat_sub_of_le (by rw [le_def, toNat_blockBytes ho]; exact hle),
      toNat_blockBytes ho, toNat_ofNat, Nat.mod_eq_of_lt (by omega)]
    rfl
  rw [hmask, getLsbD_ofNat]
  by_cases hj : j < 32
  · simp [hj]
  · simp [show ¬ j < o + 12 by omega]

theorem address_aligned (ho : b.order ≤ maxOrder) : address b &&& (blockBytes b.order - 1) = 0 := by
  apply eq_of_getLsbD_eq
  intro j hj
  rw [getLsbD_and, getLsbD_mask ho, getLsbD_address]
  by_cases h : j < b.order + 12 <;> simp [h]

theorem and_not_mask (ho : o ≤ maxOrder) (x : Word) :
    x &&& ~~~(blockBytes o - 1) = address ⟨o, x.toNat / 2 ^ (o + 12)⟩ := by
  apply eq_of_getLsbD_eq
  intro j hj
  rw [getLsbD_and, getLsbD_not, getLsbD_mask ho, getLsbD_address,
    Nat.testBit_div_two_pow, testBit_toNat]
  by_cases h : j < o + 12
  · simp [h]
  · simp [hj, Nat.not_lt.mp h]

theorem alignUp_eq {a : Word} (ho : o ≤ maxOrder) (ha : a.toNat ≤ 2 ^ 31) :
    alignUp a (blockBytes o) = address ⟨o, (a.toNat + 2 ^ (o + 12) - 1) / 2 ^ (o + 12)⟩ := by
  have ho' : o ≤ 16 := ho
  have hpos : 1 ≤ 2 ^ (o + 12) := Nat.one_le_two_pow
  have hle : 2 ^ (o + 12) ≤ 2 ^ 28 := Nat.pow_le_pow_right (by omega) (by omega)
  have hsum : (a + blockBytes o).toNat = a.toNat + 2 ^ (o + 12) := by
    rw [toNat_add, toNat_blockBytes ho, Nat.mod_eq_of_lt (by omega)]
  have hsub : (a + blockBytes o - 1).toNat = a.toNat + 2 ^ (o + 12) - 1 := by
    have hle : 1 ≤ a + blockBytes o := by
      rw [le_def, hsum]
      exact hpos.trans (Nat.le_add_left _ _)
    rw [toNat_sub_of_le hle, hsum]
    rfl
  rw [alignUp, and_not_mask ho, hsub]

end Aevros.Memory
