import Mathlib.Tactic

/-! # Buffers as functions

What a function of the position holds up to some size is a list. Reading takes a part of the list,
and writing replaces one.
-/

namespace Buffer

open List

variable {α : Type*}

def window (f : ℕ → α) (offset n : ℕ) : List α := (range n).map fun i => f (offset + i)

def patch (f : ℕ → α) (offset n : ℕ) (g : ℕ → α) (i : ℕ) : α :=
  if offset ≤ i ∧ i < offset + n then g (i - offset) else f i

def overwrite (l : List α) (offset : ℕ) (new : List α) : List α :=
  l.take offset ++ new ++ l.drop (offset + new.length)

variable {f g : ℕ → α} {offset n size : ℕ} {l new : List α}

@[simp] theorem length_window : (window f offset n).length = n := by simp [window]

theorem getElem?_window (i : ℕ) :
    (window f offset n)[i]? = if i < n then some (f (offset + i)) else none := by
  rw [window, getElem?_map]
  split_ifs with hi
  · rw [getElem?_range hi, Option.map_some]
  · rw [getElem?_eq_none (by simpa using hi), Option.map_none]

theorem window_congr (h : ∀ i < n, f (offset + i) = g (offset + i)) :
    window f offset n = window g offset n :=
  map_congr_left fun i hi => h i (mem_range.mp hi)

theorem window_eq_take_drop (f : ℕ → α) (h : offset ≤ size) :
    window f offset (min n (size - offset)) = ((window f 0 size).drop offset).take n := by
  refine ext_getElem? fun i => ?_
  rw [getElem?_window, getElem?_take, getElem?_drop, getElem?_window, Nat.zero_add]
  split_ifs <;> first | rfl | omega

theorem getElem?_overwrite (h : offset ≤ l.length) (i : ℕ) : (overwrite l offset new)[i]? =
    if i < offset then l[i]?
    else if i < offset + new.length then new[i - offset]? else l[i]? := by
  have htake : (l.take offset).length = offset := by rw [length_take]; omega
  rw [overwrite, append_assoc]
  by_cases hi : i < offset
  · rw [if_pos hi, getElem?_append_left (by omega), getElem?_take, if_pos hi]
  rw [if_neg hi, getElem?_append_right (by omega), htake]
  split_ifs with hn
  · rw [getElem?_append_left (by omega)]
  · rw [getElem?_append_right (by omega), getElem?_drop]
    congr 1
    omega

theorem window_patch (g : ℕ → α) (h : offset ≤ size) :
    window (patch f offset n g) 0 (max size (offset + n)) =
      overwrite (window f 0 size) offset (window g 0 n) := by
  refine ext_getElem? fun i => ?_
  rw [getElem?_window, getElem?_overwrite (by rwa [length_window]), length_window, getElem?_window,
    getElem?_window, Nat.zero_add, Nat.zero_add, patch]
  split_ifs <;> first | rfl | omega

end Buffer
