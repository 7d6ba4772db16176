import Aevros.Proc.State
import Aevros.Library.Partial

/-! # What tasks do with tasks

Each call is one step; one that does not come to its end has none. What a call does to memory and to
files is left out but for whether it succeeds.
-/

namespace Aevros.Proc

structure Supply where
  task : ℕ
  stack : Bool
  space : Bool
  heap : Bool

structure Snapshot where
  name : List Byte
  isUser : Bool

inductive Call
  | createKernel
  | createUser
  | fork
  /-- A program, and whether it is read and loaded. -/
  | exec (path : List Byte) (loads : Bool)
  | exit (status : Word)
  | waitpid (target : Word)
  | addReady (task : ℕ)
  | removeReady (task : ℕ)
  | save (name : List Byte)
  | work
  /-- A checkpoint, and what there is in the file if that is one. -/
  | restore (name : List Byte) (snap : Option Snapshot)
  | schedule

structure Event where
  call : Call
  mem : Supply

namespace Kernel

variable (s : Kernel)

def name (t : ℕ) : List Byte := (s.tasks.get t).name

def newTask (p : ℕ) (name : List Byte) : Kernel :=
  { s with
    tasks := s.tasks.put p { Tcb.zero with pid := s.nextPid, parent := s.currentTask, name := name }
    nextPid := s.nextPid + 1 }

def enter (p : ℕ) (name : List Byte) : Kernel := (s.newTask p name).taskRegisterAll p

def freeTask (p : ℕ) : Kernel := { s with tasks := s.tasks.free p }

section

variable (name : List Byte)

section

variable (mem : Supply)

def createProcess : ℕ × Kernel :=
  let p := s.tasks.fresh mem.task
  if p = 0 then (0, s)
  else if mem.stack = false then (0, (s.newTask p name).freeTask p)
  else (p, s.enter p name)

def kernelName : List Byte := [0x6b, 0x65, 0x72, 0x6e, 0x65, 0x6c]

def taskCreateKernel : Option Kernel :=
  let (t, s) := s.createProcess kernelName mem
  if t = 0 then some s else s.taskAddReady t

def taskCreateUser : Option Kernel :=
  if mem.space = false then some s
  else
    let (t, s) := s.createProcess [] mem
    if t = 0 then some s else s.taskAddReady t

def shortName : List Byte := name.take 15

def doFork : Option Kernel :=
  let p := s.tasks.fresh mem.task
  if s.currentTask = 0 ∨ p = 0 then some s
  else if mem.space = false ∨ mem.stack = false then
    some { s with tasks := (s.tasks.put p Tcb.zero).free p }
  else (s.enter p (shortName (s.name s.currentTask))).taskAddReady p

def sysExec (path : List Byte) (loads : Bool) (mem : Supply) : Option Kernel :=
  let p := s.tasks.fresh mem.task
  if loads = false ∨ p = 0 then some s
  else if mem.stack = false then some { s with tasks := (s.tasks.put p Tcb.zero).free p }
  else (s.enter p (shortName path)).taskAddReady p

def markZombie (dead : ℕ) (status : Word) : Kernel :=
  { s with tasks := s.tasks.modify dead fun tcb =>
    { tcb with state := .zombie, exitCode := status } }

def wakeParent (dead : ℕ) : Kernel :=
  if s.parent dead ≠ 0 ∧ s.state (s.parent dead) = .blocked then
    s.setState (s.parent dead) .ready
  else s

/-- Without a task to go over to, or out of the queue, a task does not come to the end of this. -/
def sysExit (status : Word) : Option Kernel :=
  let dead := s.currentTask
  if dead = 0 then some s
  else
    let s := s.markZombie dead status
    if s.next dead = dead ∨ s.readyQueue = 0 then none
    else (Circle.before s.next dead s.fuel s.readyQueue).bind fun temp =>
      let s := (s.unlink temp dead).wakeParent dead
      let next := s.pickNextTask
      if next = 0 ∨ next = dead then none else some (s.run next)

def waitsFor (target : Word) (t : ℕ) : Bool :=
  s.parent t = s.currentTask ∧ (target = -1 ∨ (s.tasks.get t).pid = target)

def toReap (target : Word) : Option ℕ :=
  s.all.find? fun t => s.waitsFor target t && s.state t = .zombie

inductive Waited
  | reaped (pid status : Word)
  | failed
  | blocked

def sysWaitpid (target : Word) : Option (Waited × Kernel) :=
  if s.currentTask = 0 then some (.failed, s)
  else
    match s.toReap target with
    | some t => (s.unregister t).map fun s' =>
      (.reaped (s.tasks.get t).pid (s.tasks.get t).exitCode, s'.freeTask t)
    | none =>
      if s.all.any (s.waitsFor target) then
        some (.blocked, (s.setState s.currentTask .blocked).schedule)
      else some (.failed, s)

def findTaskByName : ℕ :=
  if s.currentTask ≠ 0 ∧ s.name s.currentTask = name then s.currentTask
  else (s.all.find? fun t => s.name t = name).getD 0

def countTasksNamed : ℕ := s.all.countP fun t => s.name t = name

def captureSelfSnapshot : Kernel :=
  if mem.heap = false then s
  else ({ s with workSnapshot := true, waiterTask := s.currentTask }).switchToTaskState
    s.workerTask .blocked

def doActualSaveToFile (target : ℕ) : Kernel :=
  if s.state target = .ready then (s.setState target .blocked).setState target .ready else s

def aevrospointSave : Kernel :=
  let target := s.findTaskByName name
  if target = 0 then s
  else if target = s.currentTask then
    if 1 < s.countTasksNamed name then s else s.captureSelfSnapshot mem
  else s.doActualSaveToFile target

end

/-- `worker_thread`, from where it is given the processor to where it gives it away. -/
def workerThread : Option Kernel :=
  if s.workerTask = 0 ∨ s.currentTask ≠ s.workerTask then none
  else
    (if s.workSnapshot then
        ({ s with workSnapshot := false, waiterTask := 0 }).taskAddReady s.waiterTask
      else some s).bind fun s =>
    (s.taskRemoveReady s.workerTask).map fun s => s.schedule

def aevrospointRestore (snap : Option Snapshot) (mem : Supply) : Option Kernel :=
  if 1 < s.countTasksNamed name then some s
  else
    match snap with
    | none => some s
    | some snap =>
      let p := s.tasks.fresh mem.task
      if p = 0 then some s
      else if mem.stack = false then some { s with tasks := (s.tasks.put p Tcb.zero).free p }
      else if snap.isUser = true ∧ mem.space = false then
        some ((s.newTask p snap.name).freeTask p)
      else (s.enter p snap.name).taskAddReady p

end

def perform (mem : Supply) : Call → Option Kernel
  | .createKernel => s.taskCreateKernel mem
  | .createUser => s.taskCreateUser mem
  | .fork => s.doFork mem
  | .exec path loads => s.sysExec path loads mem
  | .exit status => s.sysExit status
  | .waitpid target => (s.sysWaitpid target).map Prod.snd
  | .addReady task => s.taskAddReady task
  | .removeReady task => s.taskRemoveReady task
  | .save name => some (s.aevrospointSave name mem)
  | .work => s.workerThread
  | .restore name snap => s.aevrospointRestore name snap mem
  | .schedule => some s.schedule

def step (e : Event) : Option Kernel := s.perform e.mem e.call

def shellName : List Byte := [0x73, 0x68, 0x65, 0x6c, 0x6c]

def workerName : List Byte := [0x63, 0x6b, 0x70, 0x74, 0x77, 0x6f, 0x72, 0x6b, 0x65, 0x72]

/-- The worker, at 1, is made while there is no queue, and the shell, at 2, is alone in it. -/
def boot (worker : Bool) : Kernel where
  tasks := ⟨fun
      | 1 => if worker then ⟨0, .ready, 0, 0, 0, 0, workerName⟩ else Tcb.zero
      | 2 => ⟨if worker then 1 else 0, .running, 2, if worker then 1 else 0, 0, 0, shellName⟩
      | _ => Tcb.zero, if worker then {1, 2} else {2}⟩
  currentTask := 2
  readyQueue := 2
  allTasks := 2
  nextPid := if worker then 2 else 1
  workerTask := if worker then 1 else 0
  waiterTask := 0
  workSnapshot := false

end Kernel

end Aevros.Proc
