import Mathlib.Tactic

/-! # Programs that read a buffer

Which cell of a buffer a program reads next may depend on what it has read so far. Two buffers that
agree on the cells that it reads cannot be told apart.
-/

inductive Reads (β α : Type) where
  | done (a : α)
  | read (i : ℕ) (next : β → Reads β α)

namespace Reads

variable {β α γ : Type}

def bind : Reads β α → (α → Reads β γ) → Reads β γ
  | .done a, f => f a
  | .read i next, f => .read i fun b => (next b).bind f

instance : Monad (Reads β) where
  pure := .done
  bind := bind

def cell (i : ℕ) : Reads β β := .read i .done

def run (d : ℕ → β) : Reads β α → α
  | .done a => a
  | .read i next => (next (d i)).run d

def log (d : ℕ → β) : Reads β α → List ℕ
  | .done _ => []
  | .read i next => i :: (next (d i)).log d

variable {d d' : ℕ → β} {x : Reads β α} {f : α → Reads β γ} {n : ℕ}

@[simp] theorem log_pure (a : α) : (pure a : Reads β α).log d = [] := rfl

@[simp] theorem log_cell (i : ℕ) : (cell i : Reads β β).log d = [i] := rfl

@[simp] theorem run_pure (a : α) : (pure a : Reads β α).run d = a := rfl

@[simp] theorem run_cell (i : ℕ) : (cell i : Reads β β).run d = d i := rfl

@[simp] theorem log_bind : (x >>= f).log d = x.log d ++ (f (x.run d)).log d := by
  induction x with
  | done a => rfl
  | read i next ih => exact congrArg (i :: ·) (ih (d i))

@[simp] theorem run_bind : (x >>= f).run d = (f (x.run d)).run d := by
  induction x with
  | done a => rfl
  | read i next ih => exact ih (d i)

theorem run_ite {p : Prop} [Decidable p] {y : Reads β α} :
    (if p then x else y).run d = if p then x.run d else y.run d := apply_ite (run d) p x y

theorem run_congr (h : ∀ i ∈ x.log d, d i = d' i) : x.run d = x.run d' ∧ x.log d = x.log d' := by
  induction x with
  | done a => exact ⟨rfl, rfl⟩
  | read i next ih =>
    have hi : d i = d' i := h i List.mem_cons_self
    obtain ⟨hrun, hlog⟩ := ih (d i) fun j hj => h j (List.mem_cons_of_mem _ hj)
    constructor
    · exact hrun.trans (by rw [hi]; rfl)
    · exact congrArg (i :: ·) (hlog.trans (by rw [hi]))

def Within (d : ℕ → β) (n : ℕ) (x : Reads β α) : Prop := ∀ i ∈ x.log d, i < n

@[simp] theorem within_pure (a : α) : Within d n (pure a) := by
  simp [Within]

@[simp] theorem within_cell {i : ℕ} : Within d n (cell i) ↔ i < n := by
  simp [Within]

@[simp] theorem within_bind : Within d n (x >>= f) ↔ Within d n x ∧ Within d n (f (x.run d)) := by
  simp only [Within, log_bind, List.forall_mem_append]

theorem within_ite {p : Prop} [Decidable p] {y : Reads β α} (hx : p → Within d n x)
    (hy : ¬ p → Within d n y) : Within d n (if p then x else y) := by
  split_ifs with h
  · exact hx h
  · exact hy h

end Reads
