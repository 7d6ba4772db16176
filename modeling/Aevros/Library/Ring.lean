import Mathlib.Tactic

/-! # Circular buffers

Cells `0 … cap - 1` are written and read round and round. This is a first-in first-out queue as long
as no more than `cap` cells are occupied.
-/

namespace Ring

open Nat Function List

variable {α : Type*} (cap : ℕ)

/-- Write the values from position `p` on; the new store and the next position. -/
def write : (ℕ → α) → ℕ → List α → (ℕ → α) × ℕ
  | st, p, [] => (st, p)
  | st, p, x :: xs => write (update st p x) ((p + 1) % cap) xs

/-- Read `n` cells from position `p` on; the values and the next position. -/
def read (st : ℕ → α) : ℕ → ℕ → List α × ℕ
  | p, 0 => ([], p)
  | p, n + 1 => (st p :: (read st ((p + 1) % cap) n).1, (read st ((p + 1) % cap) n).2)

variable {cap}

section

variable (st : ℕ → α) {p : ℕ}

include st

@[simp] theorem length_read (p n : ℕ) : (read cap st p n).1.length = n := by
  induction n generalizing p with
  | zero => rfl
  | succ n ih => simp [read, ih]

theorem read_snd (hp : p < cap) (n : ℕ) : (read cap st p n).2 = (p + n) % cap := by
  induction n generalizing p with
  | zero => exact (mod_eq_of_lt hp).symm
  | succ n ih =>
    rw [read, ih (mod_lt _ (by omega)), mod_add_mod]
    congr 1
    omega

theorem write_snd (hp : p < cap) (xs : List α) : (write cap st p xs).2 = (p + xs.length) % cap := by
  induction xs generalizing st p with
  | nil => exact (mod_eq_of_lt hp).symm
  | cons x xs ih =>
    rw [write, ih _ (mod_lt _ (by omega)), mod_add_mod, length_cons]
    congr 1
    omega

theorem read_append (p m n : ℕ) : (read cap st p (m + n)).1 =
      (read cap st p m).1 ++ (read cap st (read cap st p m).2 n).1 := by
  induction m generalizing p with
  | zero => simp [read]
  | succ m ih => rw [succ_add, read, read, ih, cons_append]

theorem take_read (p : ℕ) {m n : ℕ} (h : m ≤ n) :
    (read cap st p n).1.take m = (read cap st p m).1 := by
  obtain ⟨d, rfl⟩ := Nat.exists_eq_add_of_le h
  rw [read_append, take_left' (length_read ..)]

theorem drop_read (hp : p < cap) {m n : ℕ} (h : m ≤ n) :
    (read cap st p n).1.drop m = (read cap st ((p + m) % cap) (n - m)).1 := by
  obtain ⟨d, rfl⟩ := Nat.exists_eq_add_of_le h
  rw [read_append, drop_left' (length_read ..), read_snd st hp, Nat.add_sub_cancel_left]

theorem getElem_read (hp : p < cap) {n i : ℕ} (hi : i < n) :
    (read cap st p n).1[i]? = some (st ((p + i) % cap)) := by
  induction n generalizing p i with
  | zero => omega
  | succ n ih =>
    cases i with
    | zero => simp [read, mod_eq_of_lt hp]
    | succ i =>
      rw [read, getElem?_cons_succ, ih (mod_lt _ (by omega)) (by omega), mod_add_mod]
      congr 3
      omega

end

theorem read_congr {st st' : ℕ → α} (hp : p < cap) {n : ℕ}
    (h : ∀ i < n, st ((p + i) % cap) = st' ((p + i) % cap)) :
    (read cap st p n).1 = (read cap st' p n).1 := by
  apply ext_getElem?
  intro i
  by_cases hi : i < n
  · rw [getElem_read st hp hi, getElem_read st' hp hi, h i hi]
  · rw [getElem?_eq_none (by simp; omega), getElem?_eq_none (by simp; omega)]

theorem add_mod_injective {p i j : ℕ} (hi : i < cap) (hj : j < cap)
    (h : (p + i) % cap = (p + j) % cap) : i = j := by
  have hc : i ≡ j [MOD cap] := Nat.ModEq.add_left_cancel' p h
  exact Nat.ModEq.eq_of_lt_of_lt hc hi hj

section

variable (st : ℕ → α)

include st

theorem write_of_free (hp : p < cap) (xs : List α) {q : ℕ}
    (hq : ∀ j < xs.length, q ≠ (p + j) % cap) :
    (write cap st p xs).1 q = st q := by
  induction xs generalizing st p with
  | nil => rfl
  | cons x xs ih =>
    have hne : q ≠ p := by simpa [mod_eq_of_lt hp] using hq 0 (by simp)
    rw [write, ih _ (mod_lt _ (by omega)), update_of_ne hne]
    intro j hj
    have := hq (j + 1) (by simp; omega)
    rwa [mod_add_mod, show p + 1 + j = p + (j + 1) by omega]

theorem read_write_same (hp : p < cap) (xs : List α) (hx : xs.length ≤ cap) :
    (read cap (write cap st p xs).1 p xs.length).1 = xs := by
  induction xs generalizing st p with
  | nil => rfl
  | cons x xs ih =>
    have hp' : (p + 1) % cap < cap := mod_lt _ (by omega)
    simp only [length_cons] at hx
    have hcell : (write cap (update st p x) ((p + 1) % cap) xs).1 p = x := by
      rw [write_of_free _ hp', update_self]
      intro j hj he
      rw [mod_add_mod] at he
      have := @add_mod_injective cap p 0 (j + 1) (by omega) (by omega)
        (by rw [add_zero, mod_eq_of_lt hp, he]; congr 1; omega)
      omega
    rw [length_cons, read, write, hcell, ih _ hp' (by omega)]

theorem read_write {p n : ℕ} (hp : p < cap) (xs : List α) (hx : n + xs.length ≤ cap) :
    (read cap (write cap st ((p + n) % cap) xs).1 p (n + xs.length)).1 =
      (read cap st p n).1 ++ xs := by
  have hw : (p + n) % cap < cap := mod_lt _ (by omega)
  rw [read_append, read_snd _ hp, read_write_same _ hw _ (by omega)]
  congr 1
  apply read_congr hp
  intro i hi
  apply write_of_free _ hw
  intro j hj he
  rw [mod_add_mod, add_assoc] at he
  have := add_mod_injective (by omega) (by omega) he
  omega

/-- A value put into the cell before the first one is read first. -/
theorem read_update_pred {p n : ℕ} (hp : p < cap) (hn : n < cap) (x : α) :
    (read cap (update st ((p + cap - 1) % cap) x) ((p + cap - 1) % cap) (n + 1)).1 =
      x :: (read cap st p n).1 := by
  have hnext : ((p + cap - 1) % cap + 1) % cap = p := by
    rw [mod_add_mod, show p + cap - 1 + 1 = p + cap by omega, add_mod_right, mod_eq_of_lt hp]
  rw [read, hnext, update_self]
  refine congrArg (x :: ·) (read_congr hp fun i hi => update_of_ne (fun he => ?_) _ _)
  rw [Nat.add_sub_assoc (by omega)] at he
  have := add_mod_injective (by omega) (by omega) he
  omega

end

end Ring
