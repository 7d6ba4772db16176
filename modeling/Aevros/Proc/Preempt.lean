import Aevros.Proc.Calls

/-! # Exit and wait in steps

`sys_exit`, `sys_waitpid` and `schedule` taken apart at the places where the timer can strike, whose
handler runs `schedule` as a whole.
-/

namespace Aevros.Proc

inductive Phase
  | out
  /-- In `sys_exit`, a zombie, with the descriptors below `fd` closed. -/
  | closing (fd : ℕ)
  /-- Not alone in the queue, and about to leave it. -/
  | unlinking
  | unlinked
  /-- The parent has been woken. -/
  | woken
  /-- With a task to go over to. -/
  | going (next : ℕ)
  | gone
  /-- In the endless loop behind "System Halted". -/
  | halted
  /-- In `sys_waitpid`, at some task of the list of all tasks. -/
  | scanning (target : Word) (curr : ℕ) (hasChildren : Bool)
  /-- At a zombie that is waited for. -/
  | reaping (curr : ℕ)
  /-- The zombie is off the list. -/
  | unlisted (curr : ℕ)
  /-- At the end of the list, with children but no zombie. -/
  | blocking (target : Word)
  /-- Blocked, and about to call `schedule`. -/
  | parked (target : Word)
  /-- In `schedule`, with a task to go over to. -/
  | switching (target : Word) (next : ℕ)
  /-- At the end of `schedule`, on the way to the next turn. -/
  | waiting (target : Word)
  /-- In a `schedule` of its own. -/
  | yielding (next : ℕ)
  deriving DecidableEq

/-- The kernel, where each task is, and which of its descriptors are open. -/
structure Machine where
  kernel : Kernel
  phase : ℕ → Phase
  fdTable : ℕ → ℕ → Bool

inductive Act
  | own
  | exit (status : Word)
  | waitpid (target : Word)
  | yield
  | create (call : Call) (mem : Supply) (fds : ℕ → Bool)
  | tick

def Kernel.switchTo (s : Kernel) (next : ℕ) : Kernel :=
  if next = 0 ∨ next = s.currentTask ∨ s.currentTask = 0 then s
  else (if s.state s.currentTask = .running then s.setState s.currentTask .ready else s).run next

def Call.makes : Call → Bool
  | .createKernel | .createUser | .fork | .exec _ _ => true
  | _ => false

namespace Machine

variable (m : Machine)

def go (s : Kernel) (ph : Phase) : Machine :=
  { m with kernel := s, phase := Function.update m.phase m.kernel.currentTask ph }

def close (fd : ℕ) : Machine :=
  { m with
    fdTable := Function.update m.fdTable m.kernel.currentTask
      (Function.update (m.fdTable m.kernel.currentTask) fd false) }

def scan (s : Kernel) (target : Word) (curr : ℕ) (hasChildren : Bool) : Phase :=
  if curr = 0 then if hasChildren then .blocking target else .out
  else if s.waitsFor target curr then
    if s.state curr = .zombie then .reaping curr else .scanning target (s.allNext curr) true
  else .scanning target (s.allNext curr) hasChildren

/-- One with no next step is outside, has exited, or stays where it is. -/
def own : Option Machine :=
  let s := m.kernel
  let self := s.currentTask
  match m.phase self with
  | .out | .gone | .halted => none
  | .closing fd => some <|
    if fd < 32 then (m.close fd).go s (.closing (fd + 1))
    else m.go s (if s.next self = self then .halted else .unlinking)
  | .unlinking =>
    if s.readyQueue = 0 then none
    else (Circle.before s.next self s.fuel s.readyQueue).map fun temp =>
      m.go (s.unlink temp self) .unlinked
  | .unlinked => some (m.go (s.wakeParent self) .woken)
  | .woken => some <|
    m.go s (if s.pickNextTask = 0 ∨ s.pickNextTask = self then .halted else .going s.pickNextTask)
  | .going next => some (m.go (s.run next) .gone)
  | .scanning target curr hasChildren => some (m.go s (scan s target curr hasChildren))
  | .reaping curr => (s.unregister curr).map fun s' => m.go s' (.unlisted curr)
  | .unlisted curr => some (m.go (s.freeTask curr) .out)
  | .blocking target => some (m.go (s.setState self .blocked) (.parked target))
  | .parked target => some (m.go s (.switching target s.pickNextTask))
  | .switching target next => some (m.go (s.switchTo next) (.waiting target))
  | .waiting target => some (m.go s (.scanning target s.allTasks false))
  | .yielding next => some (m.go (s.switchTo next) .out)

def begin : Act → Option Machine
  | .exit status => some (m.go (m.kernel.markZombie m.kernel.currentTask status) (.closing 0))
  | .waitpid target => some (m.go m.kernel (.scanning target m.kernel.allTasks false))
  | .yield => some (m.go m.kernel (.yielding m.kernel.pickNextTask))
  | .create call mem fds =>
    if call.makes then (m.kernel.perform mem call).map fun s' =>
      { kernel := s'
        phase := fun t => if t ∈ m.kernel.tasks.live then m.phase t else .out
        fdTable := fun t => if t ∈ m.kernel.tasks.live then m.fdTable t else fds }
    else none
  | .own | .tick => none

def step (a : Act) : Option Machine :=
  match a with
  | .own => m.own
  | .tick => some { m with kernel := m.kernel.schedule }
  | a =>
    match m.phase m.kernel.currentTask with
    | .out => m.begin a
    | _ => none

def start (worker : Bool) (fds : ℕ → ℕ → Bool) : Machine := ⟨.boot worker, fun _ => .out, fds⟩

end Machine

end Aevros.Proc
