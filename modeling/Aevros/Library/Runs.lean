import Mathlib.Tactic

/-! # Runs of a deterministic state machine

`run` takes a list of events in order, and `Along` states a property of every step taken. The rules
turn facts about one step into facts about whole runs.
-/

namespace Runs

open List

variable {σ ε : Type*} (step : σ → ε → σ)

def run (s : σ) (es : List ε) : σ := es.foldl step s

@[simp] theorem run_nil (s : σ) : run step s [] = s := rfl

@[simp] theorem run_cons (s : σ) (e : ε) (es : List ε) :
    run step s (e :: es) = run step (step s e) es := rfl

theorem run_append (s : σ) (es fs : List ε) :
    run step s (es ++ fs) = run step (run step s es) fs := foldl_append

/-- `P` holds of the state and the event of every step of the run. -/
def Along (P : σ → ε → Prop) : σ → List ε → Prop
  | _, [] => True
  | s, e :: es => P s e ∧ Along P (step s e) es

instance Along.decidable (P : σ → ε → Prop) [∀ s e, Decidable (P s e)] :
    (s : σ) → (es : List ε) → Decidable (Along step P s es)
  | _, [] => .isTrue trivial
  | s, e :: es => @instDecidableAnd _ _ _ (Along.decidable P (step s e) es)

variable {step} {P Q : σ → ε → Prop} {I : σ → Prop} {s : σ} {es : List ε}

theorem run_invariant (hstep : ∀ s e, I s → I (step s e)) (hs : I s) (es : List ε) :
    I (run step s es) := by
  induction es generalizing s with
  | nil => exact hs
  | cons e es ih => exact ih (hstep s e hs)

theorem along_of_forall {p : ε → Prop} (h : ∀ e ∈ es, p e) : Along step (fun _ e => p e) s es := by
  induction es generalizing s with
  | nil => trivial
  | cons e es ih => exact ⟨h e (by simp), ih fun e' he' => h e' (by simp [he'])⟩

theorem Along.run_invariant (hstep : ∀ s e, I s → P s e → I (step s e)) (hs : I s)
    (h : Along step P s es) : I (run step s es) := by
  induction es generalizing s with
  | nil => exact hs
  | cons e es ih => exact ih (hstep s e hs h.1) h.2

theorem Along.and (h : Along step P s es) (h' : Along step Q s es) :
    Along step (fun s e => P s e ∧ Q s e) s es := by
  induction es generalizing s with
  | nil => trivial
  | cons e es ih => exact ⟨⟨h.1, h'.1⟩, ih h.2 h'.2⟩

theorem along_append {es fs : List ε} :
    Along step P s (es ++ fs) ↔ Along step P s es ∧ Along step P (run step s es) fs := by
  induction es generalizing s with
  | nil => simp [Along]
  | cons e es ih => simp only [cons_append, Along, ih, run_cons, and_assoc]

theorem Along.imp (hstep : ∀ s e, I s → P s e → I (step s e) ∧ Q s e) (hs : I s)
    (h : Along step P s es) : Along step Q s es := by
  induction es generalizing s with
  | nil => trivial
  | cons e es ih =>
    obtain ⟨hi, hq⟩ := hstep s e hs h.1
    exact ⟨hq, ih hi h.2⟩

/-- Step properties that agree on legal steps agree along legal runs. -/
theorem along_congr {L : σ → ε → Prop} (hstep : ∀ s e, I s → L s e → Q s e → I (step s e))
    (h : ∀ s e, I s → L s e → (P s e ↔ Q s e)) (hs : I s) (hl : Along step L s es) :
    Along step P s es ↔ Along step Q s es := by
  induction es generalizing s with
  | nil => exact Iff.rfl
  | cons e es ih =>
    have he := h s e hs hl.1
    constructor
    · intro ⟨hp, hes⟩
      have hq := he.mp hp
      exact ⟨hq, (ih (hstep s e hs hl.1 hq) hl.2).mp hes⟩
    · intro ⟨hq, hes⟩
      exact ⟨he.mpr hq, (ih (hstep s e hs hl.1 hq) hl.2).mpr hes⟩

/-- If `Q` survives exactly the steps with `P`, it holds all along exactly if all steps have it. -/
theorem along_iff_of_survives {Q : σ → Prop} (hstep : ∀ s e, I s → I (step s e))
    (h : ∀ s e, I s → Q s → (Q (step s e) ↔ P s e)) (hs : I s) (hq : Q s) (es : List ε) :
    Along step (fun s e => Q (step s e)) s es ↔ Along step P s es := by
  induction es generalizing s with
  | nil => exact Iff.rfl
  | cons e es ih =>
    constructor
    · exact fun ⟨hq', hes⟩ => ⟨(h s e hs hq).mp hq', (ih (hstep s e hs) hq').mp hes⟩
    · intro ⟨hp, hes⟩
      have hq' := (h s e hs hq).mpr hp
      exact ⟨hq', (ih (hstep s e hs) hq').mpr hes⟩

/-- A relation that every pair of related steps keeps relates the ends of related runs. -/
theorem run_related {R : σ → σ → Prop} {E : ε → ε → Prop}
    (hstep : ∀ s s' e e', R s s' → E e e' → P s e → R (step s e) (step s' e')) {s s' : σ}
    (hs : R s s') {es es' : List ε} (he : Forall₂ E es es') (hp : Along step P s es) :
    R (run step s es) (run step s' es') := by
  induction he generalizing s s' with
  | nil => exact hs
  | cons h _ ih => exact ih (hstep _ _ _ _ hs h hp.1) hp.2

/-- A map that every step commutes with, wherever the invariant holds, commutes with runs. -/
theorem map_run {τ : Type*} {step' : τ → ε → τ} {f : σ → τ} (hI : ∀ s e, I s → I (step s e))
    (hf : ∀ s e, I s → f (step s e) = step' (f s) e) (hs : I s) (es : List ε) :
    f (run step s es) = run step' (f s) es := by
  induction es generalizing s with
  | nil => rfl
  | cons e es ih => rw [run_cons, run_cons, ih (hI s e hs), hf s e hs]

theorem along_map {τ : Type*} {step' : τ → ε → τ} {P : τ → ε → Prop} {f : σ → τ}
    (hI : ∀ s e, I s → I (step s e)) (hf : ∀ s e, I s → f (step s e) = step' (f s) e) (hs : I s)
    (es : List ε) : Along step (fun s e => P (f s) e) s es ↔ Along step' P (f s) es := by
  induction es generalizing s with
  | nil => exact Iff.rfl
  | cons e es ih => rw [Along, Along, ih (hI s e hs), hf s e hs]

section Machines

variable {step' : σ → ε → σ} (heq : ∀ s e, P s e → step s e = step' s e)

include heq

theorem Along.run_eq (h : Along step P s es) : run step s es = run step' s es := by
  induction es generalizing s with
  | nil => rfl
  | cons e es ih => rw [run_cons, run_cons, ih h.2, heq s e h.1]

theorem along_of_observed {β : Type*} {obs : σ → β} {L : ε → Prop}
    (hobs : ∀ s e, L e → obs (step s e) = obs (step' s e) → P s e) (hl : ∀ e ∈ es, L e)
    (h : ∀ n, obs (run step s (es.take n)) = obs (run step' s (es.take n))) :
    Along step P s es := by
  induction es generalizing s with
  | nil => trivial
  | cons e es ih =>
    have hp := hobs s e (hl e mem_cons_self) (h 1)
    refine ⟨hp, ih (fun e' he' => hl e' (mem_cons_of_mem _ he')) fun n => ?_⟩
    have hn := h (n + 1)
    rwa [take_succ_cons, run_cons, run_cons, ← heq s e hp] at hn

end Machines

theorem Along.take (h : Along step P s es) (n : ℕ) : Along step P s (es.take n) := by
  rw [← take_append_drop n es, along_append] at h
  exact h.1

end Runs
