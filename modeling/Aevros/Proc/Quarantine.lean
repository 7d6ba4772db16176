import Aevros.Proc.State

/-! # Life log and quarantine

A task's log has room for sixteen events. What it says of the last 200 ticks decides whether the
task is frozen.
-/

namespace Aevros.Proc

open Function List

inductive TaskEventType
  | created
  | firstRun
  | exec
  | fdOpen
  | fdClose
  | forked
  | childDied
  | fault
  | signal
  | blocked
  | woke
  | exited
  | quarantined
  deriving DecidableEq

structure TaskEvent where
  type : TaskEventType
  tick : Word
  data : Word

def taskMaxEvents : ℕ := 16

/-- The fields of `task_t` that `try_quarantine` uses. -/
structure Watched where
  state : TaskState
  events : List TaskEvent := []

namespace Watched

variable (t : Watched)

def taskLogEvent (type : TaskEventType) (now data : Word) : Watched :=
  if taskMaxEvents ≤ t.events.length then t
  else { t with events := t.events ++ [⟨type, now, data⟩] }

def tryQuarantine (now : Word) : Watched :=
  if t.state = .quarantined ∨ t.state = .zombie then t
  else
    let opens := t.events.countP fun e => now - e.tick ≤ 200 ∧ e.type = .fdOpen
    let closes := t.events.countP fun e => now - e.tick ≤ 200 ∧ e.type = .fdClose
    if 9 ≤ opens ∧ closes ≤ 1 then
      taskLogEvent { t with state := .quarantined } .quarantined now (BitVec.ofNat 32 opens)
    else t

end Watched

def quarantineCheckAndAct (now : Word) (ring : List ℕ) (tasks : ℕ → Watched) : ℕ → Watched :=
  ring.foldl (fun tasks t => update tasks t ((tasks t).tryQuarantine now)) tasks

variable {t : Watched} {now : Word}

@[simp] theorem Watched.state_taskLogEvent (type : TaskEventType) (now data : Word) :
    (t.taskLogEvent type now data).state = t.state := by
  rw [taskLogEvent]
  split_ifs <;> rfl

theorem Watched.tryQuarantine_idem :
    (t.tryQuarantine now).tryQuarantine now = t.tryQuarantine now := by
  by_cases hsame : t.tryQuarantine now = t
  · rw [hsame, hsame]
  · have hfrozen : (t.tryQuarantine now).state = .quarantined := by
      rw [tryQuarantine] at hsame ⊢
      dsimp only at hsame ⊢
      split_ifs at hsame ⊢ with hout hleak
      · exact absurd rfl hsame
      · rw [state_taskLogEvent]
      · exact absurd rfl hsame
    rw [tryQuarantine, if_pos (.inl hfrozen)]

theorem quarantineCheckAndAct_apply (ring : List ℕ) (tasks : ℕ → Watched) (u : ℕ) :
    quarantineCheckAndAct now ring tasks u =
      if u ∈ ring then (tasks u).tryQuarantine now else tasks u := by
  induction ring generalizing tasks with
  | nil => rfl
  | cons v ring ih =>
    rw [quarantineCheckAndAct, foldl_cons, ← quarantineCheckAndAct, ih]
    by_cases huv : u = v
    · simp [huv, Watched.tryQuarantine_idem]
    · simp [huv]

end Aevros.Proc
