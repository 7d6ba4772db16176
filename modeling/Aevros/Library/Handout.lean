import Mathlib.Data.Finset.Card
import Mathlib.Tactic

/-! # Handing out

A system that hands out one of the things that wait for it at every call. What is handed out by some
later call is what waits now.
-/

namespace Handout

open Finset

variable {σ κ : Type*} [DecidableEq κ] {next : σ → σ} {out : σ → Option κ} {waiting : σ → Finset κ}

/-- What one call does in the states in which `Inv` holds. -/
structure Serves (Inv : σ → Prop) (next : σ → σ) (out : σ → Option κ) (waiting : σ → Finset κ) :
    Prop where
  keeps : ∀ s, Inv s → Inv (next s)
  idle : ∀ s, Inv s → waiting s = ∅ → out s = none ∧ waiting (next s) = ∅
  hands : ∀ s, Inv s → waiting s ≠ ∅ →
    ∃ k ∈ waiting s, out s = some k ∧ waiting (next s) = (waiting s).erase k

variable {Inv : σ → Prop} {s : σ} {k : κ}

namespace Serves

variable (h : Serves Inv next out waiting)

include h

theorem out_mem (hs : Inv s) (hk : out s = some k) : k ∈ waiting s := by
  by_contra hnot
  rcases (waiting s).eq_empty_or_nonempty with hempty | hne
  · simp [(h.idle s hs hempty).1] at hk
  · obtain ⟨k', hmem, hout, -⟩ := h.hands s hs hne.ne_empty
    simp only [hk, Option.some.injEq] at hout
    exact hnot (hout ▸ hmem)

theorem waiting_next_subset (hs : Inv s) : waiting (next s) ⊆ waiting s := by
  rcases (waiting s).eq_empty_or_nonempty with hempty | hne
  · simp [(h.idle s hs hempty).2]
  · obtain ⟨k, -, -, hnext⟩ := h.hands s hs hne.ne_empty
    rw [hnext]
    exact erase_subset k _

theorem exists_out_iff (hs : Inv s) : (∃ n, out (next^[n] s) = some k) ↔ k ∈ waiting s := by
  constructor
  · rintro ⟨n, hn⟩
    induction n generalizing s with
    | zero => exact h.out_mem hs hn
    | succ n ih =>
      exact h.waiting_next_subset hs (ih (h.keeps s hs) hn)
  · intro hk
    induction hc : (waiting s).card generalizing s with
    | zero => simp [card_eq_zero.mp hc] at hk
    | succ c ih =>
      obtain ⟨k', hmem, hout, hnext⟩ := h.hands s hs (ne_empty_of_mem hk)
      rcases eq_or_ne k k' with rfl | hne
      · exact ⟨0, hout⟩
      · have hk' : k ∈ waiting (next s) := by
          rw [hnext]
          exact mem_erase.mpr ⟨hne, hk⟩
        have hc' : (waiting (next s)).card = c := by
          rw [hnext, card_erase_of_mem hmem, hc, Nat.add_sub_cancel]
        obtain ⟨n, hn⟩ := ih (h.keeps s hs) hk' hc'
        exact ⟨n + 1, by rwa [Function.iterate_succ_apply]⟩

end Serves

end Handout
