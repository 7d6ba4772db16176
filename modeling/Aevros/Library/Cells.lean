import Mathlib.Tactic

/-! # Records at addresses

A record for every address, and the set of the addresses in use. A freed record stays where it was,
so that a pointer to it still reads it.
-/

structure Cells (α : Type*) where
  get : ℕ → α
  live : Finset ℕ

namespace Cells

open Function

variable {α : Type*} (h : Cells α) {p q : ℕ} {v : α} {f : α → α}

/-- The answer to a request for memory, if `p` is what the allocator comes to. -/
def fresh (p : ℕ) : ℕ := if p ∈ h.live then 0 else p

def put (p : ℕ) (v : α) : Cells α where
  get := update h.get p v
  live := insert p h.live

def take (p : ℕ) : Cells α := { h with live := insert p h.live }

def free (p : ℕ) : Cells α := { h with live := h.live.erase p }

def modify (p : ℕ) (f : α → α) : Cells α :=
  { h with get := update h.get p (f (h.get p)) }

variable {h}

theorem fresh_notMem (hne : h.fresh p ≠ 0) : h.fresh p ∉ h.live := by
  rw [fresh] at hne ⊢
  split at hne
  · exact absurd rfl hne
  · rwa [if_neg ‹_›]

@[simp] theorem get_put_self : (h.put p v).get p = v := update_self ..

theorem get_put_of_ne (hne : q ≠ p) : (h.put p v).get q = h.get q := update_of_ne hne ..

@[simp] theorem live_put : (h.put p v).live = insert p h.live := rfl

@[simp] theorem live_take : (h.take p).live = insert p h.live := rfl

@[simp] theorem get_free : (h.free p).get = h.get := rfl

@[simp] theorem live_free : (h.free p).live = h.live.erase p := rfl

@[simp] theorem get_modify_self : (h.modify p f).get p = f (h.get p) := update_self ..

theorem get_modify_of_ne (hne : q ≠ p) : (h.modify p f).get q = h.get q :=
  update_of_ne hne ..

@[simp] theorem live_modify : (h.modify p f).live = h.live := rfl

theorem modify_get_self : h.modify p (fun _ => h.get p) = h := by
  rw [modify, update_eq_self]

theorem get_modify_field {β : Type*} {g : α → β} (hg : ∀ v, g (f v) = g v) (q : ℕ) :
    g ((h.modify p f).get q) = g (h.get q) := by
  by_cases hq : q = p
  · rw [hq, get_modify_self, hg]
  · rw [get_modify_of_ne hq]

end Cells
