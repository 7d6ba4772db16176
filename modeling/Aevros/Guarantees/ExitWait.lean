import Aevros.Proc.Undisturbed

/-! # Exit and wait under the timer

Tasks that exit come to their end and are freed, and no parent stays blocked, as long as the timer
does not disturb the calls.
-/

namespace Aevros.Proc.Machine

open Partial Kernel Function Option

variable {m m' : Machine} {X : Set ℕ} {s s' : Kernel} {t : ℕ}

theorem live_switchTo (s : Kernel) (next : ℕ) : (s.switchTo next).tasks.live = s.tasks.live := by
  rw [switchTo]
  split_ifs <;> rfl

theorem own_frees (hstep : m.own = some m') (ht : t ∈ m.kernel.tasks.live)
    (hfreed : t ∉ m'.kernel.tasks.live) : m.phase m.self = .unlisted t := by
  cases hph : m.phase m.self with
  | unlisted curr =>
    simp only [own, hph, some.injEq] at hstep
    subst hstep
    by_contra hne
    exact hfreed (Finset.mem_erase.mpr ⟨fun heq : t = curr => hne (heq ▸ rfl), ht⟩)
  | unlinking =>
    simp only [own, hph] at hstep
    split_ifs at hstep
    obtain ⟨temp, -, rfl⟩ := map_eq_some_iff.mp hstep
    exact absurd ht hfreed
  | reaping curr =>
    simp only [own, hph] at hstep
    obtain ⟨s, hun, rfl⟩ := map_eq_some_iff.mp hstep
    rw [kernel_go, (unregister_frame hun).1] at hfreed
    exact absurd ht hfreed
  | closing fd =>
    simp only [own, hph, some.injEq] at hstep
    subst hstep
    split_ifs at hfreed <;> exact absurd ht hfreed
  | unlinked | woken | going | scanning | blocking | parked | switching | waiting | yielding =>
    simp only [own, hph, some.injEq] at hstep
    subst hstep
    simp only [kernel_go, sameFamily_wakeParent.live, live_switchTo] at hfreed
    exact absurd ht hfreed
  | out | gone | halted => simp [own, hph] at hstep

theorem Inv.frees (h : Inv X m) {a : Act} (hstep : m.step a = some m')
    (ht : t ∈ m.kernel.tasks.live) (hfreed : t ∉ m'.kernel.tasks.live) : ¬ m.kernel.OnQueue t := by
  by_cases hown : a = .own
  · subst hown
    exact (h.free (own_frees hstep ht hfreed)).1
  · by_cases htick : a = .tick
    · subst htick
      cases hstep
      exact absurd (sameFamily_schedule.live.symm ▸ ht) hfreed
    · obtain ⟨hph, hbegin⟩ := step_begin hown htick hstep
      have hshape := h.shape
      rw [hph] at hshape
      cases a with
      | create call mem fds =>
        rw [Machine.begin] at hbegin
        split_ifs at hbegin with hmakes
        obtain ⟨s', hcall, rfl⟩ := map_eq_some_iff.mp hbegin
        exact absurd (((creates_of_makes hmakes hcall).frame hshape).2.1 ht) hfreed
      | exit | waitpid | yield =>
        cases hbegin
        exact absurd ht hfreed
      | own | tick => cases hbegin

theorem inv_start (worker : Bool) (fds : ℕ → ℕ → Bool) :
    Inv {t | worker = true ∧ t = 1} (start worker fds) where
  current := (settled_boot worker).current_live
  resting _ _ _ := .inl trivial
  shape := settled_boot worker
  shut _ _ := trivial
  dead _ _ hgone := by cases hgone
  awake p _ target hblocked := by cases hblocked.2

/-- A task that exits comes to its end, none is freed in the queue, and no parent waits in vain. -/
theorem exit_and_wait {worker : Bool} {fds : ℕ → ℕ → Bool} {acts : List Act}
    (hrun : Takes step Undisturbed (start worker fds) acts m) :
    (∀ t ∈ m.kernel.tasks.live, (m.phase t).Exiting → t = m.kernel.currentTask ∧
      ∃ n m', Takes step Undisturbed m (List.replicate n .own) m' ∧ m'.Completed t) ∧
    (∀ a m', m.step a = some m' → ∀ t ∈ m.kernel.tasks.live, t ∉ m'.kernel.tasks.live →
      ¬ m.kernel.OnQueue t) ∧ m.Awake := by
  have h : Inv {t | worker = true ∧ t = 1} m :=
    hrun.invariant (fun _ _ _ h hun hstep => h.step hun hstep) (inv_start worker fds)
  refine ⟨fun t ht hexiting => ?_, fun a m' hstep t ht hfreed => h.frees hstep ht hfreed, h.awake⟩
  obtain rfl : t = m.self := by
    by_contra hne
    rcases h.resting t ht hne with hopen | hgone
    · cases hph : m.phase t <;> rw [hph] at hopen hexiting <;>
        first | exact hopen.elim | exact hexiting.elim
    · rw [hgone] at hexiting
      exact hexiting.elim
  exact ⟨rfl, h.completes hexiting⟩

def closedTo (m : Machine) (fd : ℕ) : Machine where
  kernel := m.kernel
  phase := update m.phase m.kernel.currentTask (.closing fd)
  fdTable := update m.fdTable m.kernel.currentTask fun i =>
    decide (fd ≤ i) && m.fdTable m.kernel.currentTask i

theorem closedTo_zero (h : m.phase m.self = .closing 0) : m.closedTo 0 = m := by
  simp [closedTo, ← h]

theorem own_closedTo {fd : ℕ} (hfd : fd < 32) :
    (m.closedTo fd).own = some (m.closedTo (fd + 1)) := by
  have hph : (m.closedTo fd).phase (m.closedTo fd).kernel.currentTask = .closing fd :=
    update_self ..
  simp only [own, hph, if_pos hfd]
  congr 1
  simp only [closedTo, go, close, update_idem]
  congr 2
  funext i
  by_cases hi : i = fd
  · simp [hi]
  · have : fd ≤ i ↔ fd + 1 ≤ i := by omega
    simp [update_of_ne hi, this]

theorem takes_closedTo (fd n : ℕ) (hle : fd + n ≤ 32) :
    Takes step (fun _ _ => True) (m.closedTo fd) (List.replicate n .own) (m.closedTo (fd + n)) := by
  induction n generalizing fd with
  | zero => exact .nil
  | succ n ih =>
    have hrest := ih (fd + 1) (by omega)
    rw [Nat.add_right_comm] at hrest
    exact .cons trivial (own_closedTo (by omega)) hrest

def shellFiles : ℕ → ℕ → Bool := fun t fd => t = 2 ∧ fd < 3

def makeAt (p : ℕ) : Act := .create .createKernel ⟨p, true, true, true⟩ (shellFiles 2)

def brief : List Act := [makeAt 3, .tick, .exit 0]

def outcome (m : Machine) (acts : List Act) : Machine :=
  (acts.foldlM (checked step fun _ _ => True) m).getD m

theorem queue_pair {a b : ℕ} (hab : a ≠ b) (ha : a ≠ 0) (hq : s.readyQueue = a)
    (hnext : s.next a = b) (hback : s.next b = a) : s.Queue [a, b] :=
  .inr ⟨hq ▸ ha, by simpa using hab, by simp, hq, hnext, hback.trans hq.symm⟩

theorem exit_completes :
    ∃ m, Takes step Undisturbed (start true shellFiles) brief m ∧ m.phase 3 = .closing 0 ∧
      (∃ n m', Takes step Undisturbed m (List.replicate n .own) m' ∧ m'.Completed 3) ∧
      m.Awake := by
  let m := outcome (start true shellFiles) brief
  have hrun : Takes step Undisturbed (start true shellFiles) brief m := by
    refine .cons trivial rfl (.cons trivial rfl (.cons ?_ rfl .nil))
    refine ⟨.inr (by decide +kernel), by decide +kernel, 2, ⟨[2, 3], ?_, by simp⟩,
      by decide +kernel, .inl (by decide +kernel)⟩
    exact queue_pair (by decide) (by decide) (by decide +kernel) (by decide +kernel)
      (by decide +kernel)
  have hphase : m.phase 3 = .closing 0 := by decide +kernel
  obtain ⟨hexits, -, hawake⟩ := exit_and_wait hrun
  exact ⟨m, hrun, hphase, (hexits 3 (by decide +kernel) (hphase ▸ trivial)).2, hawake⟩

/-- The timer strikes when the task has become a zombie, and the shell waits for it. -/
def heldUp : List Act := brief ++ [.tick, .waitpid 2, .own, .own]

/-- The shell waits for the first of two tasks; the timer strikes when it has found no zombie. -/
def lookedInVain : List Act :=
  [makeAt 3, makeAt 4, .waitpid 2, .own, .own, .own, .own, .own, .tick]

def exiting : Machine :=
  (outcome (start true shellFiles) (lookedInVain ++ [.exit 0])).closedTo 32

/-- It exits, the timer strikes again, and the shell is blocked. -/
def tooLate : Machine := outcome exiting [.own, .own, .own, .own, .own, .tick, .own]

theorem takes_exiting : Takes step (fun _ _ => True) (start true shellFiles)
    (lookedInVain ++ [.exit 0] ++ List.replicate 32 .own) exiting := by
  have hcalled : Takes step (fun _ _ => True) (start true shellFiles) (lookedInVain ++ [.exit 0])
      (outcome (start true shellFiles) (lookedInVain ++ [.exit 0])) :=
    takes_foldlM (by decide +kernel)
  have hclose := takes_closedTo (m := outcome (start true shellFiles) (lookedInVain ++ [.exit 0]))
    0 32 le_rfl
  rw [closedTo_zero (by decide +kernel)] at hclose
  exact hcalled.append hclose

theorem takes_tooLate : Takes step (fun _ _ => True) exiting
    ([.own, .own, .own, .own, .own, .tick, .own] ++ [.own, .own])
    (tooLate.go (tooLate.kernel.switchTo 4) (.waiting 2)) := by
  have hblocked : Takes step (fun _ _ => True) exiting
      [.own, .own, .own, .own, .own, .tick, .own] tooLate := by
    rw [tooLate]
    exact takes_foldlM (by decide +kernel)
  have hcur : tooLate.kernel.currentTask = 2 := by decide +kernel
  have hnext : tooLate.kernel.next 2 = 4 := by decide +kernel
  have hpick : tooLate.kernel.pickNextTask = 4 := by
    have hfirst : tooLate.kernel.pickFrom 4 0xFFFF 4 0 = 4 := by decide +kernel
    have hqueue : tooLate.kernel.readyQueue ≠ 0 := by decide +kernel
    simpa [pickNextTask, hqueue, hcur, hnext] using hfirst
  have hph : tooLate.phase tooLate.kernel.currentTask = .parked 2 := by decide +kernel
  have hown : tooLate.own = some (tooLate.go tooLate.kernel (.switching 2 4)) := by
    simp [own, hph, hpick]
  have hown' : (tooLate.go tooLate.kernel (.switching 2 4)).own =
      some (tooLate.go (tooLate.kernel.switchTo 4) (.waiting 2)) := by
    simp [own, go]
  exact hblocked.append (.cons trivial hown (.cons trivial hown' .nil))

theorem exit_held_up_and_wake_up_lost :
    (∃ m m', Takes step (fun _ _ => True) (start true shellFiles) heldUp m ∧
      m.phase 3 = .closing 0 ∧ m.kernel.currentTask = 2 ∧ m.fdTable 3 0 = true ∧
      m.kernel.OnQueue 3 ∧ m.step .own = some m' ∧ 3 ∈ m.kernel.tasks.live ∧
      3 ∉ m'.kernel.tasks.live) ∧
    ∃ acts m, Takes step (fun _ _ => True) (start true shellFiles) acts m ∧
      m.BlockedIn 2 2 ∧ m.kernel.currentTask = 4 ∧ m.phase 3 = .gone ∧
      m.kernel.parent 3 = 2 ∧ m.kernel.pid 3 = 2 ∧ m.kernel.state 3 = .zombie ∧ ¬ m.Awake := by
  constructor
  · let m := outcome (start true shellFiles) heldUp
    have hrun : Takes step (fun _ _ => True) (start true shellFiles) heldUp m :=
      takes_foldlM (by decide +kernel)
    have hfreed : (m.step .own).map (fun m => decide (3 ∈ m.kernel.tasks.live)) = some false := by
      decide +kernel
    obtain ⟨m', hown, hfreed⟩ := map_eq_some_iff.mp hfreed
    refine ⟨m, m', hrun, by decide +kernel, by decide +kernel, by decide +kernel,
      ⟨[2, 3], ?_, by simp⟩, hown, by decide +kernel, of_decide_eq_false hfreed⟩
    exact queue_pair (by decide) (by decide) (by decide +kernel) (by decide +kernel)
      (by decide +kernel)
  · let m := tooLate.go (tooLate.kernel.switchTo 4) (.waiting 2)
    have hblocked : m.BlockedIn 2 2 := ⟨by decide +kernel, by decide +kernel⟩
    have hcurrent : m.kernel.currentTask = 4 := by decide +kernel
    have hparent : m.kernel.parent 3 = 2 := by decide +kernel
    have hpid : m.kernel.pid 3 = 2 := by decide +kernel
    have hzombie : m.kernel.state 3 = .zombie := by decide +kernel
    refine ⟨_, m, takes_exiting.append takes_tooLate, hblocked, hcurrent, by decide +kernel,
      hparent, hpid, hzombie, fun hawake => ?_⟩
    have hcur := (hawake 2 (by decide +kernel) 2 hblocked 3 (by decide +kernel) hparent (.inr hpid)
      hzombie).1
    cases hcur

end Aevros.Proc.Machine
