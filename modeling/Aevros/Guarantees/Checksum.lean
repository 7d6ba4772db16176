import Aevros.Wire.Segment
import Mathlib.Algebra.BigOperators.Fin

/-! # What the TCP checksum detects

The accumulator of `checksum_ok` never wraps, and a change of a single word is seen unless it swaps
the two representatives of zero.
-/

namespace Aevros

open BitVec List Finset

def addWords (sum : Word) : List Byte → Word
  | [] => sum
  | [a] => sum + (a ++ (0 : Byte)).setWidth 32
  | a :: b :: p => addWords (sum + (a ++ b).setWidth 32) p

def foldOnce (sum : Word) : Word := (sum &&& 0xFFFF#32) + (sum >>> 16)

theorem toNat_foldOnce (sum : Word) :
    (foldOnce sum).toNat = sum.toNat % 65536 + sum.toNat / 65536 := by
  have hmask : (sum &&& 0xFFFF#32).toNat = sum.toNat % 65536 := by
    exact Nat.and_two_pow_sub_one_eq_mod _ 16
  rw [foldOnce, toNat_add, toNat_ushiftRight]
  omega

theorem ushiftRight_eq_zero_iff (sum : Word) : sum >>> 16 = 0 ↔ sum.toNat < 65536 := by
  rw [← toNat_inj, toNat_ushiftRight, Nat.shiftRight_eq_div_pow]
  simp

def carryLoop (sum : Word) : Word :=
  if sum >>> 16 = 0 then sum else carryLoop (foldOnce sum)
termination_by sum.toNat
decreasing_by
  rename_i h
  rw [ushiftRight_eq_zero_iff] at h
  rw [toNat_foldOnce]
  omega

def checksumLoops (tcp : List Byte) (src dst : Ip4) : Bool :=
  let sum := addWords (addWords 0#32 src.bytes) dst.bytes
  let sum := sum + 6#32 + BitVec.ofNat 32 tcp.length
  carryLoop (addWords sum tcp) = 0xFFFF

theorem toNat_append_bytes (a b : Byte) : (a ++ b).toNat = a.toNat * 256 + b.toNat := by
  rw [toNat_append, ← Nat.shiftLeft_add_eq_or_of_lt b.isLt, Nat.shiftLeft_eq]

theorem toNat_add_word (sum : Word) (a b : Byte)
    (h : sum.toNat + (a.toNat * 256 + b.toNat) < 2 ^ 32) :
    (sum + (a ++ b).setWidth 32).toNat = sum.toNat + (a.toNat * 256 + b.toNat) := by
  rw [toNat_add, toNat_setWidth, toNat_append_bytes,
    Nat.mod_eq_of_lt (show a.toNat * 256 + b.toNat < 2 ^ 32 by omega), Nat.mod_eq_of_lt h]

theorem toNat_addWords (sum : Word) (p : List Byte) (h : sum.toNat + sumWords p < 2 ^ 32) :
    (addWords sum p).toNat = sum.toNat + sumWords p := by
  fun_induction addWords sum p with
  | case1 sum => rfl
  | case2 sum a =>
    simp only [sumWords] at h ⊢
    have hadd := toNat_add_word sum a 0 (by simpa using h)
    simpa using hadd
  | case3 sum a b p ih =>
    simp only [sumWords] at h ⊢
    have hlt : sum.toNat + (a.toNat * 256 + b.toNat) + sumWords p < 2 ^ 32 := by
      rwa [Nat.add_assoc]
    have hadd := toNat_add_word sum a b (Nat.lt_of_le_of_lt (Nat.le_add_right _ _) hlt)
    rw [← hadd] at hlt
    rw [ih hlt, hadd, Nat.add_assoc]

theorem toNat_carryLoop (sum : Word) (h : 0 < sum.toNat) :
    (carryLoop sum).toNat = (sum.toNat - 1) % 65535 + 1 := by
  fun_induction carryLoop sum with
  | case1 sum hz =>
    rw [ushiftRight_eq_zero_iff] at hz
    omega
  | case2 sum hz ih =>
    rw [toNat_foldOnce] at ih
    omega

theorem two_mul_sumWords_le (p : List Byte) : 2 * sumWords p ≤ 65535 * (p.length + 1) := by
  fun_induction sumWords p with
  | case1 => simp
  | case2 a =>
    simp only [length_cons]
    omega
  | case3 a b p ih =>
    simp only [length_cons]
    omega

theorem sumWords_ip (ip : Ip4) : sumWords ip.bytes ≤ 163837 := by
  have h := two_mul_sumWords_le ip.bytes
  simp only [Ip4.bytes, length_cons, length_nil] at h ⊢
  omega

theorem tcpSum_lt_of_packet (p : Packet) (src dst : Ip4) : tcpSum src dst p.bytes < 2 ^ 32 := by
  have hlen := p.length_lt
  have hsum := two_mul_sumWords_le p.bytes
  have hsrc := sumWords_ip src
  have hdst := sumWords_ip dst
  unfold tcpSum
  omega

theorem checksumOk_iff (p : Packet) (src dst : Ip4) :
    checksumOk p.bytes src dst = true ↔ tcpSum src dst p.bytes % 65535 = 0 := by
  have hpos := tcpSum_pos src dst p.bytes
  rw [checksumOk, foldSum_eq hpos (tcpSum_lt_of_packet p src dst), decide_eq_true_eq]
  omega

theorem checksumLoops_eq (p : Packet) (src dst : Ip4) :
    checksumLoops p.bytes src dst = checksumOk p.bytes src dst := by
  have hlt := tcpSum_lt_of_packet p src dst
  have hpos := tcpSum_pos src dst p.bytes
  simp only [tcpSum] at hlt
  have hsrc : (addWords 0#32 src.bytes).toNat = sumWords src.bytes := by
    rw [toNat_addWords]
    · exact Nat.zero_add _
    · rw [toNat_ofNat]
      omega
  have hips : (addWords (addWords 0#32 src.bytes) dst.bytes).toNat =
      sumWords src.bytes + sumWords dst.bytes := by
    rw [toNat_addWords, hsrc]
    omega
  have hhead : (addWords (addWords 0#32 src.bytes) dst.bytes + 6#32 +
      BitVec.ofNat 32 p.bytes.length).toNat =
        sumWords src.bytes + sumWords dst.bytes + 6 + p.bytes.length := by
    rw [toNat_add, toNat_add, toNat_ofNat, toNat_ofNat]
    omega
  have hsum : (addWords (addWords (addWords 0#32 src.bytes) dst.bytes + 6#32 +
      BitVec.ofNat 32 p.bytes.length) p.bytes).toNat = tcpSum src dst p.bytes := by
    rw [toNat_addWords, hhead, tcpSum]
    omega
  rw [checksumOk, foldSum_eq hpos (tcpSum_lt_of_packet p src dst), checksumLoops]
  simp only [← toNat_inj]
  rw [toNat_carryLoop _ (hsum ▸ hpos), hsum]
  rfl

theorem sumWords_eq_sum (p : List Byte) :
    sumWords p = ∑ i ∈ range ((p.length + 1) / 2), (be16 p (2 * i)).toNat := by
  fun_induction sumWords p with
  | case1 => rfl
  | case2 a => simp [be16, toNat_append_bytes]
  | case3 a b p ih =>
    have hlen : ((a :: b :: p).length + 1) / 2 = (p.length + 1) / 2 + 1 := by
      simp only [length_cons]
      omega
    have hhead : (be16 (a :: b :: p) (2 * 0)).toNat = a.toNat * 256 + b.toNat :=
      toNat_append_bytes a b
    rw [hlen, Finset.sum_range_succ', hhead, ih, Nat.add_comm]
    rfl

def setWord (p : List Byte) (i : ℕ) (w : Port) : List Byte :=
  (p.set (2 * i) (w.extractLsb' 8 8)).set (2 * i + 1) (w.extractLsb' 0 8)

theorem sumWords_change {p q : List Byte} {i : ℕ} (hlen : q.length = p.length)
    (hi : 2 * i < p.length) (hsame : ∀ j, j ≠ i → be16 q (2 * j) = be16 p (2 * j)) :
    sumWords q + (be16 p (2 * i)).toNat = sumWords p + (be16 q (2 * i)).toNat := by
  have hmem : i ∈ Finset.range ((p.length + 1) / 2) := by
    rw [Finset.mem_range]
    omega
  have hrest : ∑ j ∈ (Finset.range ((p.length + 1) / 2)).erase i, (be16 q (2 * j)).toNat =
      ∑ j ∈ (Finset.range ((p.length + 1) / 2)).erase i, (be16 p (2 * j)).toNat := by
    apply sum_congr rfl
    intro j hj
    rw [hsame j (ne_of_mem_erase hj)]
  rw [sumWords_eq_sum p, sumWords_eq_sum q, hlen, ← add_sum_erase _ _ hmem,
    ← add_sum_erase _ _ hmem]
  omega

section

variable {p : List Byte}

theorem be16_setWord_self {i : ℕ} (h : 2 * i + 1 < p.length) (w : Port) :
    be16 (setWord p i w) (2 * i) = w := by
  have hhi : (setWord p i w).getD (2 * i) 0 = w.extractLsb' 8 8 := by
    simp [setWord, show 2 * i < p.length by omega]
  have hlo : (setWord p i w).getD (2 * i + 1) 0 = w.extractLsb' 0 8 := by
    simp [setWord, h]
  rw [be16, hhi, hlo, bytes16_append]

theorem be16_setWord_of_ne {i j : ℕ} (h : j ≠ i) (w : Port) :
    be16 (setWord p i w) (2 * j) = be16 p (2 * j) := by
  have hodd : ∀ k, k ≠ 2 * i → k ≠ 2 * i + 1 → (setWord p i w).getD k 0 = p.getD k 0 := by
    intro k h₁ h₂
    simp [setWord, h₁.symm, h₂.symm]
  rw [be16, be16, hodd _ (by omega) (by omega), hodd _ (by omega) (by omega)]

@[simp] theorem length_setWord (p : List Byte) (i : ℕ) (w : Port) :
    (setWord p i w).length = p.length := by
  simp [setWord]

theorem toNat_be16_last {i : ℕ} (h : p.length = 2 * i + 1) :
    (be16 p (2 * i)).toNat = (p.getD (2 * i) 0).toNat * 256 := by
  have hlo : p.getD (2 * i + 1) 0 = 0 := by
    rw [List.getD_eq_getElem?_getD, List.getElem?_eq_none h.le]
    rfl
  rw [be16, toNat_append_bytes, hlo]
  exact Nat.add_zero _

theorem be16_set_of_ne {i j : ℕ} (h : j ≠ i) (b : Byte) :
    be16 (p.set (2 * i) b) (2 * j) = be16 p (2 * j) := by
  have hsame : ∀ k, k ≠ 2 * i → (p.set (2 * i) b).getD k 0 = p.getD k 0 := by
    intro k hk
    simp [hk.symm]
  rw [be16, be16, hsame _ (by omega), hsame _ (by omega)]

theorem checksumOk_of_accept {src dst : Ip4}
    (h : conversationCheck p src dst = .accept) : checksumOk p src dst = true := by
  unfold conversationCheck at h
  split_ifs at h with _ _ _ hsum
  simpa using hsum

end

theorem checksumLoops_change {p q : Packet} {src dst : Ip4} {i : ℕ}
    (hacc : conversationCheck p.bytes src dst = .accept)
    (hlen : q.bytes.length = p.bytes.length) (hi : 2 * i < p.bytes.length)
    (hsame : ∀ j, j ≠ i → be16 q.bytes (2 * j) = be16 p.bytes (2 * j))
    (hne : be16 q.bytes (2 * i) ≠ be16 p.bytes (2 * i)) :
    checksumLoops q.bytes src dst = true ↔
      be16 p.bytes (2 * i) = 0 ∧ be16 q.bytes (2 * i) = 0xFFFF ∨
        be16 p.bytes (2 * i) = 0xFFFF ∧ be16 q.bytes (2 * i) = 0 := by
  have hok := (checksumOk_iff p src dst).mp (checksumOk_of_accept hacc)
  have hsum := sumWords_change hlen hi hsame
  rw [checksumLoops_eq, checksumOk_iff]
  have hz : (0 : Port).toNat = 0 := rfl
  have hf : (0xFFFF : Port).toNat = 65535 := rfl
  simp only [tcpSum, ← toNat_inj, ne_eq] at hok hne ⊢
  omega

/-- One changed word is detected unless it is between `0x0000` and `0xFFFF`. -/
theorem single_word_error_detected (p : Packet) (src dst : Ip4)
    (hacc : conversationCheck p.bytes src dst = .accept) :
    (∀ i w, 2 * i + 1 < p.bytes.length → w ≠ be16 p.bytes (2 * i) →
      (checksumLoops (setWord p.bytes i w) src dst = true ↔
        be16 p.bytes (2 * i) = 0 ∧ w = 0xFFFF ∨ be16 p.bytes (2 * i) = 0xFFFF ∧ w = 0)) ∧
    (∀ b, p.bytes.length % 2 = 1 → b ≠ p.bytes.getD (p.bytes.length - 1) 0 →
      checksumLoops (p.bytes.set (p.bytes.length - 1) b) src dst = false) := by
  constructor
  · intro i w hi hne
    have hlt : (setWord p.bytes i w).length < 65536 := by
      rw [length_setWord]
      exact p.length_lt
    have hword := be16_setWord_self hi w
    have hiff := checksumLoops_change (q := ⟨setWord p.bytes i w, hlt⟩) hacc
      (length_setWord p.bytes i w) (Nat.lt_of_succ_lt hi)
      (fun j hj => be16_setWord_of_ne hj w) (by rwa [hword])
    rwa [hword] at hiff
  · intro b hodd hne
    obtain ⟨i, hi⟩ : ∃ i, p.bytes.length = 2 * i + 1 := ⟨p.bytes.length / 2, by omega⟩
    have hlt : (p.bytes.set (2 * i) b).length < 65536 := by
      rw [length_set]
      exact p.length_lt
    have hnew : (be16 (p.bytes.set (2 * i) b) (2 * i)).toNat = b.toNat * 256 := by
      rw [toNat_be16_last (by rw [length_set, hi])]
      simp [hi]
    have hold := toNat_be16_last hi
    rw [hi, Nat.add_sub_cancel] at hne ⊢
    have hdiff : be16 (p.bytes.set (2 * i) b) (2 * i) ≠ be16 p.bytes (2 * i) := by
      intro heq
      apply hne
      apply eq_of_toNat_eq
      rw [heq] at hnew
      omega
    have hiff := checksumLoops_change (q := ⟨p.bytes.set (2 * i) b, hlt⟩) hacc
      length_set (by omega) (fun j hj => be16_set_of_ne hj b) hdiff
    rw [Bool.eq_false_iff, ne_eq, hiff]
    have hf : (0xFFFF : Port).toNat = 65535 := rfl
    rintro (⟨-, h⟩ | ⟨h, -⟩)
    · rw [h] at hnew
      omega
    · rw [h] at hold
      omega

def threeBytes : Packet :=
  (⟨4000, 80, 1, 2, flagAck, 512, [1, 2, 3]⟩ : Segment).packet ⟨10, 0, 2, 2⟩ ⟨10, 0, 2, 15⟩

theorem payload_error_detected :
    checksumLoops (setWord threeBytes.bytes 10 0x0103) ⟨10, 0, 2, 2⟩ ⟨10, 0, 2, 15⟩ = false ∧
      checksumLoops (threeBytes.bytes.set 22 4) ⟨10, 0, 2, 2⟩ ⟨10, 0, 2, 15⟩ = false := by
  obtain ⟨hword, hlast⟩ := single_word_error_detected threeBytes ⟨10, 0, 2, 2⟩ ⟨10, 0, 2, 15⟩
    (conversationCheck_encode _ _ _ (by decide) (by decide))
  constructor
  · rw [Bool.eq_false_iff, ne_eq, hword 10 0x0103 (by decide) (by decide)]
    decide
  · exact hlast 4 (by decide) (by decide)

end Aevros
