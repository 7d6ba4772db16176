import Aevros.Library.Runs
import Aevros.Proc.Quarantine

/-! # Quarantine

A task is frozen by its log, which has room for sixteen events and is told of no `close`. So one
that closes what it opens is frozen, and one that leaks later is not.
-/

namespace Aevros.Proc

open Runs Function List

structure Deed where
  tick : ℕ
  type : TaskEventType
  data : Word

def Deed.event (d : Deed) : TaskEvent := ⟨d.type, BitVec.ofNat 32 d.tick, d.data⟩

/-- `sys_close` does not call `task_log_event`. -/
def Watched.note (t : Watched) (d : Deed) : Watched :=
  if d.type = .fdClose then t else t.taskLogEvent d.type (BitVec.ofNat 32 d.tick) d.data

/-- How many deeds of a type fall into the last 200 ticks. -/
def recent (ds : List Deed) (type : TaskEventType) (now : ℕ) : ℕ :=
  ds.countP fun d => now ≤ d.tick + 200 ∧ d.type = type

def Leaks (ds : List Deed) (now : ℕ) : Prop :=
  9 ≤ recent ds .fdOpen now ∧ recent ds .fdClose now ≤ 1

def logged (ds : List Deed) : List Deed :=
  (ds.filter fun d => d.type ≠ .fdClose).take taskMaxEvents

/-- The opens among the first sixteen deeds other than closes whose age in the tick counter is at
most 200. -/
def shownOpens (ds : List Deed) (now : ℕ) : ℕ :=
  (logged ds).countP fun d =>
    BitVec.ofNat 32 now - BitVec.ofNat 32 d.tick ≤ 200 ∧ d.type = .fdOpen

variable {t : Watched} {ds : List Deed}

theorem run_note (h : t.events.length ≤ taskMaxEvents) : run Watched.note t ds = { t with
    events := (t.events ++ (ds.filter fun d => d.type ≠ .fdClose).map Deed.event).take
      taskMaxEvents } := by
  induction ds generalizing t with
  | nil => simp [take_of_length_le h]
  | cons d ds ih =>
    rw [run_cons, Watched.note]
    by_cases hclose : d.type = .fdClose
    · rw [if_pos hclose, ih h, filter_cons_of_neg (by simpa using hclose)]
    · rw [if_neg hclose, filter_cons_of_pos (by simpa using hclose), Watched.taskLogEvent]
      split_ifs with hfull
      · rw [ih h, take_append_of_le_length hfull, take_append_of_le_length hfull]
      · rw [ih (by simpa using hfull)]
        simp [Deed.event]

theorem frozen_iff (st : TaskState) (ds : List Deed) (now : ℕ) :
    ((run Watched.note ⟨st, []⟩ ds).tryQuarantine (BitVec.ofNat 32 now)).state = .quarantined ↔
      st = .quarantined ∨ st ≠ .zombie ∧ 9 ≤ shownOpens ds now := by
  have hlog : run Watched.note ⟨st, []⟩ ds = ⟨st, (logged ds).map Deed.event⟩ := by
    rw [run_note (Nat.zero_le _), nil_append, ← map_take]
    rfl
  have hcloses : ((logged ds).map Deed.event).countP
      (fun e => BitVec.ofNat 32 now - e.tick ≤ 200 ∧ e.type = .fdClose) = 0 := by
    rw [countP_map, countP_eq_zero]
    intro d hd
    have hopen := (mem_filter.mp (mem_of_mem_take hd)).2
    simp_all [Deed.event]
  rw [hlog, Watched.tryQuarantine]
  simp only [hcloses, countP_map, Nat.zero_le, and_true]
  split_ifs with hout hleak
  · rcases hout with rfl | rfl <;> simp
  · simp only [Watched.state_taskLogEvent, true_iff]
    exact .inr ⟨fun hz => hout (.inr hz), hleak⟩
  · refine iff_of_false (fun hq => hout (.inl hq)) ?_
    rintro (hq | ⟨-, hshows⟩)
    · exact hout (.inl hq)
    · exact hleak hshows

/-- A leak is what gets a task frozen exactly if every log with nine opens is that of a leak, and
every leak has nine of its opens in the log. -/
theorem frozen_iff_leaks_iff (others : ℕ → Watched) (ring : List ℕ) (u : ℕ) (st : TaskState)
    (ds : List Deed) (now : ℕ) :
    let tasks := update others u (run Watched.note ⟨st, []⟩ ds)
    ((tasks u).state ≠ .quarantined ∧
        (quarantineCheckAndAct (BitVec.ofNat 32 now) ring tasks u).state = .quarantined ↔
      Leaks ds now) ↔
      if u ∈ ring ∧ st ≠ .quarantined ∧ st ≠ .zombie then
        (9 ≤ shownOpens ds now → 9 ≤ recent ds .fdOpen now ∧ recent ds .fdClose now ≤ 1) ∧
          (9 ≤ recent ds .fdOpen now → recent ds .fdClose now ≤ 1 → 9 ≤ shownOpens ds now)
      else recent ds .fdOpen now < 9 ∨ 1 < recent ds .fdClose now := by
  have hstate : (run Watched.note ⟨st, []⟩ ds).state = st := by rw [run_note (Nat.zero_le _)]
  have hkept : ¬ Leaks ds now ↔ recent ds .fdOpen now < 9 ∨ 1 < recent ds .fdClose now := by
    rw [Leaks, not_and_or, not_le, not_le]
  simp only [quarantineCheckAndAct_apply, update_self]
  rw [← hkept, ← and_imp, ← iff_iff_implies_and_implies, ← Leaks]
  by_cases hring : u ∈ ring
  · rw [if_pos hring, frozen_iff, hstate]
    by_cases hq : st = .quarantined <;> by_cases hz : st = .zombie <;> simp [hring, hq, hz]
  · simp [hring, hstate]

def openings (n : ℕ) (type : TaskEventType) : List Deed := replicate n ⟨100, type, 3⟩

theorem closer_frozen_and_leaker_not : (¬ Leaks (openings 9 .fdOpen ++ openings 9 .fdClose) 150 ∧
      ((run Watched.note ⟨.ready, []⟩ (openings 9 .fdOpen ++ openings 9 .fdClose)).tryQuarantine
        150).state = .quarantined) ∧
    Leaks (openings 16 .woke ++ openings 9 .fdOpen) 150 ∧
      ((run Watched.note ⟨.ready, []⟩ (openings 16 .woke ++ openings 9 .fdOpen)).tryQuarantine
        150).state = .ready := by
  unfold Leaks
  decide +kernel

end Aevros.Proc
