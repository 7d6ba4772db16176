import Mathlib.Tactic

/-! # Runs of a machine that can stop

A step need not lead anywhere. `Takes P s es s'` says that the machine takes the steps `es` from `s`
to `s'`, and that `P` holds of each of them.
-/

namespace Partial

variable {σ ε : Type*} (step : σ → ε → Option σ) (P : σ → ε → Prop)

inductive Takes : σ → List ε → σ → Prop
  | nil {s : σ} : Takes s [] s
  | cons {s s₁ s' : σ} {e : ε} {es : List ε} :
    P s e → step s e = some s₁ → Takes s₁ es s' → Takes s (e :: es) s'

variable {step P} {I : σ → Prop} {s s₁ s' : σ} {es fs : List ε} {e : ε}

theorem Takes.invariant (hstep : ∀ s e s', I s → P s e → step s e = some s' → I s')
    (hrun : Takes step P s es s') (hs : I s) : I s' := by
  induction hrun with
  | nil => exact hs
  | cons hp hstep' _ ih => exact ih (hstep _ _ _ hs hp hstep')

theorem Takes.append (hrun : Takes step P s es s₁) (hrest : Takes step P s₁ fs s') :
    Takes step P s (es ++ fs) s' := by
  induction hrun with
  | nil => exact hrest
  | cons hp hstep _ ih => exact .cons hp hstep (ih hrest)

def checked (step : σ → ε → Option σ) (P : σ → ε → Prop) [∀ s e, Decidable (P s e)] (s : σ)
    (e : ε) : Option σ := if P s e then step s e else none

theorem takes_foldlM [∀ s e, Decidable (P s e)] (h : (es.foldlM (checked step P) s).isSome) :
    Takes step P s es ((es.foldlM (checked step P) s).getD s) := by
  obtain ⟨s', hs'⟩ := Option.isSome_iff_exists.mp h
  rw [hs']
  clear h
  induction es generalizing s with
  | nil =>
    cases hs'
    exact .nil
  | cons e es ih =>
    obtain ⟨s₁, hstep, hrest⟩ := Option.bind_eq_some_iff.mp hs'
    rw [checked, Option.ite_none_right_eq_some] at hstep
    exact .cons hstep.1 hstep.2 (ih hrest)

end Partial
