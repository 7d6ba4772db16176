import Mathlib.Tactic

/-! # Linked lists in a memory

`Chain` says that following the links from `h` visits the nodes of a list and ends at `null`.
Writing to a node outside of the list does not change it.
-/

namespace Chain

open List Function

variable {α : Type*} (null : α)

/-- From `h` the links lead through the nodes `l` to `null`. -/
def IsChain (next : α → α) : α → List α → Prop
  | h, [] => h = null
  | h, a :: l => h = a ∧ a ≠ null ∧ IsChain next (next a) l

variable {null} {next : α → α} {h x target : α} {l l₁ l₂ : List α}

@[simp] theorem isChain_nil : IsChain null next h [] ↔ h = null := Iff.rfl

theorem IsChain.of_append (hc : IsChain null next h (l₁ ++ x :: l₂)) :
    IsChain null next x (x :: l₂) := by
  induction l₁ generalizing h with
  | nil => exact ⟨rfl, hc.2⟩
  | cons a l₁ ih => exact ih hc.2.2

section

variable (hc : IsChain null next h l)

include hc

theorem IsChain.unique {l' : List α} (hc' : IsChain null next h l') : l = l' := by
  induction l generalizing h l' with
  | nil =>
    cases l' with
    | nil => rfl
    | cons a l' => exact absurd (hc'.1.symm.trans hc) hc'.2.1
  | cons a l ih =>
    cases l' with
    | nil => exact absurd (hc.1.symm.trans hc') hc.2.1
    | cons a' l' =>
      obtain rfl : a = a' := hc.1.symm.trans hc'.1
      rw [ih hc.2.2 hc'.2.2]

theorem IsChain.nodup : l.Nodup := by
  induction l generalizing h with
  | nil => exact nodup_nil
  | cons a l ih =>
    refine nodup_cons.mpr ⟨fun ha => ?_, ih hc.2.2⟩
    obtain ⟨l₁, l₂, rfl⟩ := append_of_mem ha
    -- the part behind the second visit would be as long as the whole
    have hlen := congrArg length (hc.2.2.of_append.2.2.unique hc.2.2)
    simp at hlen
    omega

theorem IsChain.congr {next' : α → α} (heq : ∀ x ∈ l, next' x = next x) :
    IsChain null next' h l := by
  induction l generalizing h with
  | nil => exact hc
  | cons a l ih =>
    refine ⟨hc.1, hc.2.1, ?_⟩
    rw [heq a mem_cons_self]
    exact ih hc.2.2 fun x hx => heq x (mem_cons_of_mem a hx)

end

variable [DecidableEq α]

section

variable (null)

def nodes (next : α → α) : ℕ → α → List α
  | 0, _ => []
  | fuel + 1, h => if h = null then [] else h :: nodes next fuel (next h)

/-- Follow the links from `h` to `target`, with `prev` the node before `h`. -/
def search (next : α → α) (target : α) : ℕ → Option α → α → Option (Option (Option α))
  | 0, _, _ => none
  | fuel + 1, prev, h =>
    if h = null then some none
    else if h = target then some (some prev)
    else search next target fuel (some h) (next h)

end

variable {fuel : ℕ} {prev : Option α}

theorem IsChain.search_of_mem (hc : IsChain null next h (l₁ ++ target :: l₂))
    (hf : (l₁ ++ target :: l₂).length < fuel) :
    search null next target fuel prev h = some (some (l₁.getLast?.or prev)) := by
  have ht : target ∉ l₁ := fun hmem =>
    (nodup_append.mp hc.nodup).2.2 target hmem target mem_cons_self rfl
  induction l₁ generalizing h fuel prev with
  | nil =>
    obtain ⟨rfl, hne, -⟩ := hc
    cases fuel with
    | zero => exact absurd hf (Nat.not_lt_zero _)
    | succ fuel => rw [search, if_neg hne, if_pos rfl]; rfl
  | cons a l₁ ih =>
    obtain ⟨rfl, hne, hc⟩ := hc
    rw [mem_cons, not_or] at ht
    cases fuel with
    | zero => exact absurd hf (Nat.not_lt_zero _)
    | succ fuel =>
      rw [search, if_neg hne, if_neg (Ne.symm ht.1), ih hc (Nat.lt_of_succ_lt_succ hf) ht.2]
      cases l₁ <;> simp [getLast?_cons]

section

variable (hc : IsChain null next h l)

include hc

theorem IsChain.nodes_eq (hf : l.length < fuel) : nodes null next fuel h = l := by
  induction l generalizing h fuel with
  | nil =>
    cases fuel with
    | zero => rfl
    | succ fuel => rw [nodes, if_pos (isChain_nil.mp hc)]
  | cons a l ih =>
    obtain ⟨rfl, hne, hc⟩ := hc
    cases fuel with
    | zero => exact absurd hf (Nat.not_lt_zero _)
    | succ fuel => rw [nodes, if_neg hne, ih hc (Nat.lt_of_succ_lt_succ hf)]

theorem IsChain.search_of_notMem (hf : l.length < fuel) (ht : target ∉ l) :
    search null next target fuel prev h = some none := by
  induction l generalizing h fuel prev with
  | nil =>
    cases fuel with
    | zero => exact absurd hf (Nat.not_lt_zero _)
    | succ fuel => rw [search, if_pos (isChain_nil.mp hc)]
  | cons a l ih =>
    obtain ⟨rfl, hne, hc⟩ := hc
    rw [mem_cons, not_or] at ht
    cases fuel with
    | zero => exact absurd hf (Nat.not_lt_zero _)
    | succ fuel =>
      rw [search, if_neg hne, if_neg (Ne.symm ht.1), ih hc (Nat.lt_of_succ_lt_succ hf) ht.2]

theorem IsChain.write (hx : x ∉ l) (v : α) : IsChain null (update next x v) h l := by
  induction l generalizing h with
  | nil => exact hc
  | cons a l ih =>
    rw [mem_cons, not_or] at hx
    refine ⟨hc.1, hc.2.1, ?_⟩
    rw [update_of_ne (Ne.symm hx.1)]
    exact ih hc.2.2 hx.2

theorem IsChain.push (hne : x ≠ null) (hx : x ∉ l) : IsChain null (update next x h) x (x :: l) :=
  ⟨rfl, hne, by rw [update_self]; exact hc.write hx h⟩

end

theorem IsChain.unlink (hc : IsChain null next h (l₁ ++ x :: target :: l₂)) :
    IsChain null (update next x (next target)) h (l₁ ++ x :: l₂) := by
  have hnd := hc.nodup
  induction l₁ generalizing h with
  | nil =>
    obtain ⟨rfl, hne, hx, hne', hc⟩ := hc
    rw [nil_append, nodup_cons, mem_cons, not_or] at hnd
    refine ⟨rfl, hne, ?_⟩
    rw [update_self]
    exact hc.write hnd.1.2 _
  | cons a l₁ ih =>
    obtain ⟨rfl, hne, hc⟩ := hc
    rw [cons_append, nodup_cons] at hnd
    refine ⟨rfl, hne, ?_⟩
    rw [update_of_ne fun he => hnd.1 (by simp [he])]
    exact ih hc hnd.2

end Chain
