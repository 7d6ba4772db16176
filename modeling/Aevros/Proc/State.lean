import Aevros.Library.Cells
import Aevros.Library.Chain
import Aevros.Library.Circle
import Aevros.Wire.Segment

/-! # Tasks and the ready queue

`next` leads around the ready queue, and `all_next` through all tasks there are. Address 0 is
`NULL`. A loop that has not ended after as many turns as there are tasks never does.
-/

namespace Aevros.Proc

open Cells Function

inductive TaskState
  | ready
  | running
  | blocked
  | zombie
  | suspended
  | quarantined
  deriving DecidableEq

/-- The fields of `task_t` that the scheduler and the parents of tasks use. -/
structure Tcb where
  pid : Word
  state : TaskState
  next : ℕ
  allNext : ℕ
  parent : ℕ
  exitCode : Word
  name : List Byte

def Tcb.zero : Tcb := ⟨0, .ready, 0, 0, 0, 0, []⟩

def Tcb.withState (state : TaskState) (tcb : Tcb) : Tcb := { tcb with state := state }

def Tcb.withNext (next : ℕ) (tcb : Tcb) : Tcb := { tcb with next := next }

def Tcb.withAllNext (next : ℕ) (tcb : Tcb) : Tcb := { tcb with allNext := next }

structure Kernel where
  tasks : Cells Tcb
  currentTask : ℕ
  readyQueue : ℕ
  allTasks : ℕ
  nextPid : Word
  workerTask : ℕ
  waiterTask : ℕ
  workSnapshot : Bool

namespace Kernel

variable (s : Kernel)

section

variable (t : ℕ)

def pid : Word := (s.tasks.get t).pid

def state : TaskState := (s.tasks.get t).state

def next : ℕ := (s.tasks.get t).next

def parent : ℕ := (s.tasks.get t).parent

def allNext : ℕ := (s.tasks.get t).allNext

def setState (state : TaskState) : Kernel :=
  { s with tasks := s.tasks.modify t (Tcb.withState state) }

def setNext (t next : ℕ) : Kernel := { s with tasks := s.tasks.modify t (Tcb.withNext next) }

def setAllNext (t next : ℕ) : Kernel :=
  { s with tasks := s.tasks.modify t (Tcb.withAllNext next) }

def setQueue : Kernel := { s with readyQueue := t }

def fuel : ℕ := s.tasks.live.card + 1

def pickRest (fallback : ℕ) : ℕ :=
  if s.currentTask ≠ 0 ∧ s.state s.currentTask = .ready then s.currentTask else fallback

def pickFrom (start : ℕ) : ℕ → ℕ → ℕ → ℕ
  | 0, _, fallback => s.pickRest fallback
  | guard + 1, temp, fallback =>
    if s.state temp = .ready ∧ temp ≠ s.currentTask then temp
    else
      let fallback := if fallback = 0 ∧ s.state temp = .ready then temp else fallback
      if s.next temp = 0 ∨ s.next temp = start then s.pickRest fallback
      else pickFrom start guard (s.next temp) fallback

def pickNextTask : ℕ :=
  if s.readyQueue = 0 then 0
  else
    let start := if s.currentTask ≠ 0 ∧ s.next s.currentTask ≠ 0 then s.next s.currentTask
      else s.readyQueue
    s.pickFrom start 0xFFFF start 0

def run : Kernel := { s.setState t .running with currentTask := t }

end

def schedule : Kernel :=
  let prev := s.currentTask
  let next := s.pickNextTask
  if next = 0 ∨ next = prev ∨ prev = 0 then s
  else (if s.state prev = .running then s.setState prev .ready else s).run next

def switchToTaskState (target : ℕ) (leavePrevAs : TaskState) : Kernel :=
  if target = 0 ∨ s.currentTask = 0 ∨ target = s.currentTask then s
  else (s.setState s.currentTask leavePrevAs).run target

def taskAddReady (task : ℕ) : Option Kernel :=
  if task = 0 then some s
  else
    let s := s.setState task .ready
    if s.readyQueue = 0 then some ((s.setNext task task).setQueue task)
    else (Circle.before s.next s.readyQueue s.fuel s.readyQueue).map fun temp =>
      (s.setNext temp task).setNext task s.readyQueue

def unlink (temp task : ℕ) : Kernel :=
  (s.setNext temp (s.next task)).setQueue
    (if s.readyQueue = task then s.next task else s.readyQueue)

def taskRemoveReady (task : ℕ) : Option Kernel :=
  if task = 0 ∨ s.readyQueue = 0 then some s
  else
    let s := s.setState task .blocked
    if s.readyQueue = task ∧ s.next s.readyQueue = s.readyQueue then some (s.setQueue 0)
    else (Circle.beforeOrLast s.next task s.readyQueue s.fuel s.readyQueue).map fun temp =>
      if s.next temp = task then s.unlink temp task else s

def all : List ℕ := Chain.nodes 0 s.allNext s.fuel s.allTasks

def taskRegisterAll (task : ℕ) : Kernel :=
  if task = 0 then s else { s.setAllNext task s.allTasks with allTasks := task }

def unregister (task : ℕ) : Option Kernel :=
  if s.allTasks = task then some { s with allTasks := s.allNext task }
  else (Circle.before s.allNext task s.fuel s.allTasks).map fun linker =>
    s.setAllNext linker (s.allNext task)

section Fields

variable {s} {t u n : ℕ} {x : TaskState}

@[simp] theorem state_setState : (s.setState t x).state = update s.state t x := by
  funext u
  by_cases hu : u = t
  · simp [state, setState, Tcb.withState, hu]
  · simp [state, setState, get_modify_of_ne hu, update_of_ne hu]

@[simp] theorem next_setState : (s.setState t x).next = s.next :=
  funext (get_modify_field (f := Tcb.withState x) (g := Tcb.next) fun _ => rfl)

@[simp] theorem parent_setState : (s.setState t x).parent = s.parent :=
  funext (get_modify_field (f := Tcb.withState x) (g := Tcb.parent) fun _ => rfl)

@[simp] theorem allNext_setState : (s.setState t x).allNext = s.allNext :=
  funext (get_modify_field (f := Tcb.withState x) (g := Tcb.allNext) fun _ => rfl)

@[simp] theorem pid_setState : (s.setState t x).pid = s.pid :=
  funext (get_modify_field (f := Tcb.withState x) (g := Tcb.pid) fun _ => rfl)

@[simp] theorem state_setNext : (s.setNext t n).state = s.state :=
  funext (get_modify_field (f := Tcb.withNext n) (g := Tcb.state) fun _ => rfl)

@[simp] theorem next_setNext : (s.setNext t n).next = update s.next t n := by
  funext u
  by_cases hu : u = t
  · simp [next, setNext, Tcb.withNext, hu]
  · simp [next, setNext, get_modify_of_ne hu, update_of_ne hu]

@[simp] theorem parent_setNext : (s.setNext t n).parent = s.parent :=
  funext (get_modify_field (f := Tcb.withNext n) (g := Tcb.parent) fun _ => rfl)

@[simp] theorem allNext_setNext : (s.setNext t n).allNext = s.allNext :=
  funext (get_modify_field (f := Tcb.withNext n) (g := Tcb.allNext) fun _ => rfl)

@[simp] theorem pid_setNext : (s.setNext t n).pid = s.pid :=
  funext (get_modify_field (f := Tcb.withNext n) (g := Tcb.pid) fun _ => rfl)

@[simp] theorem state_setAllNext : (s.setAllNext t n).state = s.state :=
  funext (get_modify_field (f := Tcb.withAllNext n) (g := Tcb.state) fun _ => rfl)

@[simp] theorem next_setAllNext : (s.setAllNext t n).next = s.next :=
  funext (get_modify_field (f := Tcb.withAllNext n) (g := Tcb.next) fun _ => rfl)

@[simp] theorem parent_setAllNext : (s.setAllNext t n).parent = s.parent :=
  funext (get_modify_field (f := Tcb.withAllNext n) (g := Tcb.parent) fun _ => rfl)

@[simp] theorem allNext_setAllNext : (s.setAllNext t n).allNext = update s.allNext t n := by
  funext u
  by_cases hu : u = t
  · simp [allNext, setAllNext, Tcb.withAllNext, hu]
  · simp [allNext, setAllNext, get_modify_of_ne hu, update_of_ne hu]

@[simp] theorem pid_setAllNext : (s.setAllNext t n).pid = s.pid :=
  funext (get_modify_field (f := Tcb.withAllNext n) (g := Tcb.pid) fun _ => rfl)

@[simp] theorem state_setQueue : (s.setQueue t).state = s.state := rfl

@[simp] theorem next_setQueue : (s.setQueue t).next = s.next := rfl

@[simp] theorem readyQueue_setQueue : (s.setQueue t).readyQueue = t := rfl

@[simp] theorem readyQueue_setState : (s.setState t x).readyQueue = s.readyQueue := rfl

@[simp] theorem readyQueue_setNext : (s.setNext t n).readyQueue = s.readyQueue := rfl

@[simp] theorem currentTask_setState : (s.setState t x).currentTask = s.currentTask := rfl

@[simp] theorem fuel_setState : (s.setState t x).fuel = s.fuel := rfl

end Fields

end Kernel

end Aevros.Proc
