import Aevros.Proc.Preempt
import Aevros.Proc.Settled

/-! # Steps that the timer does not disturb

What holds between any two steps when the timer does not strike inside the calls. A task in one of
them is then the current one, and the kernel is as the call has left it so far.
-/

namespace Aevros.Proc

open Partial Function Option

namespace Phase

@[simp] def Exiting : Phase → Prop
  | .closing _ | .unlinking | .unlinked | .woken | .going _ | .halted => True
  | _ => False

/-- In `sys_exit`, where the parent has not been woken yet. -/
@[simp] def Unwoken : Phase → Prop
  | .closing _ | .unlinking | .unlinked => True
  | _ => False

/-- The timer may strike. -/
def Open : Phase → Prop
  | .out | .parked _ | .waiting _ => True
  | _ => False

/-- What a task waits for that has given up looking for a zombie. -/
@[simp] def awaits : Phase → Option Word
  | .parked target | .switching target _ | .waiting target => some target
  | _ => none

@[simp] def left : Phase → ℕ
  | .closing fd => 37 - fd
  | .unlinking => 4
  | .unlinked => 3
  | .woken => 2
  | .going _ => 1
  | _ => 0

@[simp] def Shut (fds : ℕ → Bool) : Phase → Prop
  | .closing fd => fd ≤ 32 ∧ ∀ i < fd, fds i = false
  | .unlinking | .unlinked | .woken | .going _ | .gone => ∀ i < 32, fds i = false
  | _ => True

end Phase

open Kernel

namespace Machine

variable {m m' : Machine} {X : Set ℕ} {s s' : Kernel} {ph : Phase} {t p : ℕ} {target : Word}
  {curr : ℕ} {hasChildren : Bool}

abbrev self (m : Machine) : ℕ := m.kernel.currentTask

@[simp] theorem kernel_go : (m.go s ph).kernel = s := rfl

@[simp] theorem phase_go_self : (m.go s ph).phase m.self = ph :=
  update_self ..

theorem phase_go_of_ne (ht : t ≠ m.self) : (m.go s ph).phase t = m.phase t :=
  update_of_ne ht ..

section

variable (m : Machine)

def Undisturbed : Act → Prop
  | .tick => (m.phase m.kernel.currentTask).Open
  | .exit _ => m.kernel.CanExit
  | _ => True

def BlockedIn (p : ℕ) (target : Word) : Prop :=
  m.kernel.state p = .blocked ∧ (m.phase p).awaits = some target

/-- Only the child that is about to wake it can be a zombie that a blocked parent waits for. -/
def Awake : Prop :=
  ∀ p ∈ m.kernel.tasks.live, ∀ target, m.BlockedIn p target → ∀ c ∈ m.kernel.tasks.live,
    m.kernel.parent c = p → (target = -1 ∨ m.kernel.pid c = target) →
      m.kernel.state c = .zombie → c = m.kernel.currentTask ∧ (m.phase c).Unwoken

def Completed (t : ℕ) : Prop :=
  m.phase t = .gone ∧ (∀ i < 32, m.fdTable t i = false) ∧ ¬ m.kernel.OnQueue t ∧
    (m.kernel.parent t ≠ 0 → m.kernel.state (m.kernel.parent t) ≠ .blocked)

end

/-- `sys_exit` was called in a state in which it comes to its end. -/
structure Exits (X : Set ℕ) (s : Kernel) (status : Word) : Prop where
  settled : Settled X s
  parent : s.parent s.currentTask = 0 ∨ s.parent s.currentTask ∈ s.tasks.live
  ends : ∃ s', s.sysExit status = some s'

/-- No zombie that is waited for is on the list before `curr`. -/
def Scanned (s : Kernel) (target : Word) (curr : ℕ) : Prop :=
  ∃ l₁ l₂, Listed (l₁ ++ l₂) s ∧ Chain.IsChain 0 s.allNext curr l₂ ∧
    ∀ t ∈ l₁, s.waitsFor target t → s.state t ≠ .zombie

/-- Nothing is left to do in `sys_exit` but to go over to another task. -/
def Woken (X : Set ℕ) (s : Kernel) : Prop :=
  ∃ s₀ status, Exits X s₀ status ∧ s.currentTask = s₀.currentTask ∧
    (s.parent s.currentTask ≠ 0 → s.state (s.parent s.currentTask) ≠ .blocked) ∧
      s.pickNextTask ≠ 0 ∧ s.pickNextTask ≠ s.currentTask ∧
        s₀.sysExit status = some (s.run s.pickNextTask)

/-- What the kernel is like when the current task is somewhere. -/
def Shape (X : Set ℕ) (s : Kernel) : Phase → Prop
  | .out | .parked _ | .waiting _ => Settled X s
  | .yielding next | .switching _ next => Settled X s ∧ next = s.pickNextTask
  | .scanning target curr _ => Settled X s ∧ Scanned s target curr
  | .reaping curr => Settled X s ∧ curr ∈ s.tasks.live ∧ s.state curr = .zombie
  | .unlisted curr => ∃ s₀, Settled X s₀ ∧ curr ∈ s₀.tasks.live ∧ s₀.state curr = .zombie ∧
    s₀.unregister curr = some s
  | .blocking target => Settled X s ∧ ∀ t ∈ s.tasks.live, s.waitsFor target t → s.state t ≠ .zombie
  | .closing _ | .unlinking => ∃ s₀ status, Exits X s₀ status ∧
    s = s₀.markZombie s₀.currentTask status
  | .unlinked => ∃ s₀ status temp, Exits X s₀ status ∧
    Circle.before s₀.next s₀.currentTask s₀.fuel s₀.readyQueue = some temp ∧
      s = (s₀.markZombie s₀.currentTask status).unlink temp s₀.currentTask
  | .woken => Woken X s
  | .going next => Woken X s ∧ next = s.pickNextTask
  | .gone | .halted => False

structure Inv (X : Set ℕ) (m : Machine) : Prop where
  current : m.kernel.currentTask ∈ m.kernel.tasks.live
  resting : ∀ t ∈ m.kernel.tasks.live, t ≠ m.kernel.currentTask →
    (m.phase t).Open ∨ m.phase t = .gone
  shape : Shape X m.kernel (m.phase m.kernel.currentTask)
  shut : ∀ t ∈ m.kernel.tasks.live, (m.phase t).Shut (m.fdTable t)
  dead : ∀ t ∈ m.kernel.tasks.live, m.phase t = .gone → m.kernel.state t = .zombie
  awake : m.Awake

/-- What a step of the current task does not touch of the tasks that it leaves. -/
structure Keeps (s s' : Kernel) : Prop where
  live : s'.tasks.live ⊆ s.tasks.live
  zombie : ∀ t ∈ s'.tasks.live, t ≠ s.currentTask → (s'.state t = .zombie ↔ s.state t = .zombie)
  parent : ∀ t ∈ s'.tasks.live, s'.parent t = s.parent t
  pid : ∀ t ∈ s'.tasks.live, s'.pid t = s.pid t

theorem Keeps.refl (s : Kernel) : Keeps s s :=
  ⟨subset_rfl, fun _ _ _ => Iff.rfl, fun _ _ => rfl, fun _ _ => rfl⟩

theorem keeps_of_sameFamily (h : SameFamily s s') : Keeps s s' where
  live := h.live.subset
  zombie t ht _ := h.zombie t (h.live ▸ ht)
  parent t ht := h.parent t (h.live ▸ ht)
  pid t ht := h.pid t (h.live ▸ ht)

theorem Awake.go (h : m.Awake) (hkeeps : Keeps m.kernel s)
    (hblocked : ∀ t ∈ s.tasks.live, t ≠ m.self → s.state t = .blocked →
      m.kernel.state t = .blocked)
    (hawaits : ∀ target, ph.awaits = some target → s.state m.self = .blocked →
      m.BlockedIn m.self target ∨ ∀ c ∈ s.tasks.live,
        s.parent c = m.self → (target = -1 ∨ s.pid c = target) → s.state c ≠ .zombie)
    (hwoken : s.state m.self = .zombie →
      s.currentTask = m.self ∧ ph.Unwoken ∨
        m.kernel.state m.self = .zombie ∧
          ¬ (m.phase m.self).Unwoken) : (m.go s ph).Awake := by
  rintro p hp target ⟨hstate, hph⟩ c hc hparent hmatch hz
  rw [kernel_go] at hp hstate hc hparent hmatch hz
  have hold : m.BlockedIn p target := by
    by_cases hself : p = m.self
    · subst hself
      rw [phase_go_self] at hph
      exact (hawaits target hph hstate).resolve_right fun hnone => hnone c hc hparent hmatch hz
    · rw [phase_go_of_ne hself] at hph
      exact ⟨hblocked p hp hself hstate, hph⟩
  rw [hkeeps.parent c hc] at hparent
  rw [hkeeps.pid c hc] at hmatch
  have hbefore := h p (hkeeps.live hp) target hold c (hkeeps.live hc) hparent hmatch
  by_cases hself : c = m.self
  · subst hself
    rw [phase_go_self]
    rcases hwoken hz with ⟨hcur, hun⟩ | ⟨hz, hun⟩
    · exact ⟨hcur.symm, hun⟩
    · exact absurd (hbefore hz).2 hun
  · exact absurd (hbefore ((hkeeps.zombie c hc hself).mp hz)).1 hself

theorem blocked_of_run (hb : (s.run t).state p = .blocked) : s.state p = .blocked := by
  change (s.setState t .running).state p = _ at hb
  by_cases hp : p = t
  · simp [hp] at hb
  · simpa [hp] using hb

theorem blocked_of_schedule (hb : s.schedule.state t = .blocked) : s.state t = .blocked := by
  rw [schedule] at hb
  split_ifs at hb
  · exact hb
  · have hb := blocked_of_run hb
    by_cases ht : t = s.currentTask
    · simp [ht] at hb
    · simpa [ht] using hb
  · exact blocked_of_run hb

theorem state_wakeParent_ne_blocked (hparent : s.parent t ≠ 0) :
    (s.wakeParent t).state (s.parent t) ≠ .blocked := by
  rw [wakeParent]
  split_ifs with hwake
  · simp
  · exact fun hb => hwake ⟨hparent, hb⟩

theorem blocked_of_wakeParent (hb : (s.wakeParent t).state p = .blocked) :
    s.state p = .blocked := by
  rw [wakeParent] at hb
  split_ifs at hb with hwake
  · by_cases hp : p = s.parent t
    · simp [hp] at hb
    · simpa [hp] using hb
  · exact hb

theorem scanned_start (hs : Settled X s) (target : Word) : Scanned s target s.allTasks := by
  obtain ⟨L, hL⟩ := hs.list
  exact ⟨[], L, hL, hL.chain, by simp⟩

theorem shape_scan (hs : Settled X s) (hscan : Scanned s target curr) :
    Shape X s (scan s target curr hasChildren) := by
  obtain ⟨l₁, l₂, hL, hchain, hnone⟩ := hscan
  rw [scan]
  cases l₂ with
  | nil =>
    rw [if_pos (show curr = 0 from hchain)]
    split_ifs
    · exact ⟨hs, fun t ht => hnone t (by simpa using (hL.mem_iff t).mpr ht)⟩
    · exact hs
  | cons a l₂ =>
    obtain ⟨rfl, hne, hrest⟩ := hchain
    have hsplit : l₁ ++ curr :: l₂ = (l₁ ++ [curr]) ++ l₂ := by simp
    have hpast (hcurr : s.waitsFor target curr → s.state curr ≠ .zombie) :
        Scanned s target (s.allNext curr) := by
      refine ⟨l₁ ++ [curr], l₂, hsplit ▸ hL, hrest, fun t ht => ?_⟩
      rcases List.mem_append.mp ht with ht | ht
      · exact hnone t ht
      · exact List.mem_singleton.mp ht ▸ hcurr
    rw [if_neg hne]
    split_ifs with hwaits hz
    · exact ⟨hs, (hL.mem_iff curr).mp (by simp), hz⟩
    · exact ⟨hs, hpast fun _ => hz⟩
    · exact ⟨hs, hpast fun hw => absurd hw hwaits⟩

theorem awaits_scan : (scan s target curr hasChildren).awaits = none := by
  rw [scan]
  split_ifs <;> rfl

theorem shut_scan {fds : ℕ → Bool} : (scan s target curr hasChildren).Shut fds := by
  rw [scan]
  split_ifs <;> trivial

theorem creates_of_makes {call : Call} {mem : Supply} (hmakes : call.makes = true)
    (hcall : s.perform mem call = some s') : Creates s s' := by
  cases call with
  | createKernel => exact creates_taskCreateKernel hcall
  | createUser => exact creates_taskCreateUser hcall
  | fork => exact creates_doFork hcall
  | exec path loads => exact creates_sysExec hcall
  | exit | waitpid | addReady | removeReady | save | work | restore | schedule =>
    exact absurd hmakes (by simp [Call.makes])

theorem step_begin {a : Act} (hown : a ≠ .own) (htick : a ≠ .tick) (hstep : m.step a = some m') :
    m.phase m.self = .out ∧ m.begin a = some m' := by
  cases hph : m.phase m.self <;> cases a <;> simp_all [step]

section

variable (h : Inv X m)

include h

namespace Inv

theorem go (hkeeps : Keeps m.kernel s) (hcurrent : s.currentTask ∈ s.tasks.live)
    (hawake : (m.go s ph).Awake) (hshape : Shape X s ((m.go s ph).phase s.currentTask))
    (hrest : s.currentTask = m.self ∨ ph.Open ∨ ph = .gone)
    (hshut : ph.Shut (m.fdTable m.self))
    (hgone : ph = .gone → s.state m.self = .zombie) : Inv X (m.go s ph) where
  current := hcurrent
  resting t ht hne := by
    by_cases hself : t = m.self
    · subst hself
      rw [phase_go_self]
      exact hrest.resolve_left hne.symm
    · rw [phase_go_of_ne hself]
      exact h.resting t (hkeeps.live ht) hself
  shape := hshape
  shut t ht := by
    by_cases hself : t = m.self
    · subst hself
      rw [phase_go_self]
      exact hshut
    · rw [phase_go_of_ne hself]
      exact h.shut t (hkeeps.live ht)
  dead t ht := by
    by_cases hself : t = m.self
    · subst hself
      rw [phase_go_self]
      exact hgone
    · rw [phase_go_of_ne hself]
      exact fun hph => (hkeeps.zombie t ht hself).mpr (h.dead t (hkeeps.live ht) hph)
  awake := hawake

theorem stay (hkeeps : Keeps m.kernel s) (hcur : s.currentTask = m.self)
    (hlive : m.self ∈ s.tasks.live) (hawake : (m.go s ph).Awake)
    (hshape : Shape X s ph) (hshut : ph.Shut (m.fdTable m.self)) :
    Inv X (m.go s ph) := by
  refine h.go hkeeps (hcur ▸ hlive) hawake ?_ (.inl hcur) hshut ?_
  · rwa [hcur, phase_go_self]
  · rintro rfl
    exact hshape.elim

theorem shape_of (hph : m.phase m.self = ph) : Shape X m.kernel ph :=
  hph ▸ h.shape

theorem shut_of (hph : m.phase m.self = ph) :
    ph.Shut (m.fdTable m.self) :=
  hph ▸ h.shut _ h.current

theorem move (hshape : Shape X m.kernel ph) (hshut : ph.Shut (m.fdTable m.self))
    (hawaits : ∀ target, ph.awaits = some target → (m.phase m.self).awaits = some
      target) (hwoken : (m.phase m.self).Unwoken → ph.Unwoken) :
    Inv X (m.go m.kernel ph) := by
  refine h.stay (.refl _) rfl h.current ?_ hshape hshut
  apply h.awake.go (.refl _) (fun _ _ _ hb => hb)
  · exact fun target hph hb => .inl ⟨hb, hawaits target hph⟩
  · intro hz
    by_cases hun : (m.phase m.self).Unwoken
    · exact .inl ⟨rfl, hwoken hun⟩
    · exact .inr ⟨hz, hun⟩

theorem switch (hs : Settled X s) (hsame : SameFamily m.kernel s)
    (hblocked : ∀ t ∈ s.tasks.live, s.state t = .blocked → m.kernel.state t = .blocked)
    (hrest : ph.Open ∨ ph = .gone ∧ s.state m.self = .zombie)
    (hshut : ph.Shut (m.fdTable m.self))
    (hawaits : ∀ target, ph.awaits = some target → (m.phase m.self).awaits = some
      target) (hwoken : ¬ (m.phase m.self).Unwoken) : Inv X (m.go s ph) := by
  have hlive : m.self ∈ s.tasks.live := hsame.live.symm ▸ h.current
  have hgone : ph = .gone → s.state m.self = .zombie := by
    rintro rfl
    exact (hrest.resolve_left id).2
  have hkeeps := keeps_of_sameFamily hsame
  refine h.go hkeeps hs.current_live ?_ ?_ (.inr (hrest.imp_right And.left)) hshut hgone
  · apply h.awake.go hkeeps (fun t ht _ => hblocked t ht)
    · exact fun target hph hb => .inl ⟨hblocked _ hlive hb, hawaits target hph⟩
    · exact fun hz => .inr ⟨(hsame.zombie _ (hsame.live ▸ hlive)).mp hz, hwoken⟩
  · have hcur := hs.current_live
    by_cases hself : s.currentTask = m.self
    · rw [hself, phase_go_self]
      rcases hrest with hopen | ⟨rfl, hz⟩
      · cases ph <;> first | exact hs | exact hopen.elim
      · exact absurd (hself ▸ hz) hs.alive
    · rw [phase_go_of_ne hself]
      rcases h.resting _ (hkeeps.live hcur) hself with hopen | hph
      · cases hph : m.phase s.currentTask <;> rw [hph] at hopen <;>
          first | exact hs | exact hopen.elim
      · have hz := h.dead _ (hkeeps.live hcur) hph
        exact absurd ((hkeeps.zombie _ hcur hself).mpr hz) hs.alive

theorem close (fd : ℕ) : Inv X (m.close fd) := { h with
  shut t ht := by
    have hfewer : ∀ i, m.fdTable t i = false → (m.close fd).fdTable t i = false := by
      intro i hi
      by_cases hself : t = m.self
      · subst hself
        by_cases hfd : i = fd
        · simp [Machine.close, hfd]
        · simpa [Machine.close, hfd] using hi
      · simpa [Machine.close, hself] using hi
    have hshut := h.shut t ht
    change (m.phase t).Shut _
    cases hph : m.phase t <;> rw [hph] at hshut <;> first
      | trivial
      | exact fun i hi => hfewer i (hshut i hi)
      | exact ⟨hshut.1, fun i hi => hfewer i (hshut.2 i hi)⟩ }

theorem exit (hph : m.phase m.self = .out) (hexit : m.kernel.CanExit)
    (status : Word) :
    Inv X (m.go (m.kernel.markZombie m.self status) (.closing 0)) := by
  have hshape : Settled X m.kernel := h.shape_of hph
  set s := m.kernel.markZombie m.self status with hs
  have hstate : ∀ t, t ≠ m.self → s.state t = m.kernel.state t := fun t ht => by
    rw [state_markZombie, update_of_ne ht]
  have hkeeps : Keeps m.kernel s := by
    refine ⟨subset_rfl, fun t _ ht => by rw [hstate t ht], fun t _ => ?_, fun t _ => ?_⟩
    · rw [parent_markZombie]
    · rw [pid_markZombie]
  refine h.stay hkeeps rfl h.current ?_
    ⟨_, status, ⟨hshape, hexit.parent, hshape.exits hexit status⟩, hs⟩ (by simp)
  apply h.awake.go hkeeps
  · exact fun t _ ht hb => hstate t ht ▸ hb
  · simp
  · exact fun _ => .inl ⟨rfl, trivial⟩

theorem unlink (hph : m.phase m.self = .unlinking) {temp : ℕ}
    (hfind : Circle.before m.kernel.next m.self m.kernel.fuel m.kernel.readyQueue =
      some temp) : Inv X (m.go (m.kernel.unlink temp m.self) .unlinked) := by
  obtain ⟨s₀, status, hexits, hs⟩ := h.shape_of hph
  have hsame : SameFamily m.kernel (m.kernel.unlink temp m.self) :=
    (sameTasks_unlink ..).sameFamily fun t => by rw [state_unlink]
  have hcur : m.self = s₀.currentTask := (congrArg Kernel.currentTask hs :)
  refine h.stay (keeps_of_sameFamily hsame) rfl h.current ?_ ?_ (h.shut_of hph :)
  · apply h.awake.go (keeps_of_sameFamily hsame)
    · exact fun t _ _ hb => by rwa [state_unlink] at hb
    · simp
    · exact fun _ => .inl ⟨rfl, trivial⟩
  · refine ⟨s₀, status, temp, hexits, ?_, by rw [← hs, hcur]⟩
    rwa [hcur, hs, next_markZombie] at hfind

theorem wake (hph : m.phase m.self = .unlinked) :
    Inv X (m.go (m.kernel.wakeParent m.self) .woken) := by
  obtain ⟨s₀, status, temp, hexits, hfind, hs⟩ := h.shape_of hph
  obtain ⟨l, K, hring, -⟩ := hexits.settled.ring
  have hlive : m.kernel.tasks.live = s₀.tasks.live := by rw [hs]; rfl
  have hcur : m.self = s₀.currentTask := (congrArg Kernel.currentTask hs :)
  set s := m.kernel.wakeParent m.self with hwake
  have hsame : SameFamily m.kernel s := sameFamily_wakeParent
  have hcur' : s.currentTask = m.self := currentTask_wakeParent
  refine h.stay (keeps_of_sameFamily hsame) hcur' (hsame.live.symm ▸ h.current) ?_ ?_
    (h.shut_of hph :)
  · rintro p hp target ⟨hb, hawaits⟩ c hc hparent hmatch hz
    rw [kernel_go] at hp hb hc hparent hmatch hz
    rw [hsame.live] at hp hc
    have hne : p ≠ m.self := by
      rintro rfl
      rw [phase_go_self] at hawaits
      cases hawaits
    rw [phase_go_of_ne hne] at hawaits
    rw [hsame.parent c hc] at hparent
    rw [hsame.pid c hc] at hmatch
    obtain ⟨rfl, -⟩ := h.awake p hp target ⟨blocked_of_wakeParent hb, hawaits⟩ c hc hparent hmatch
      ((hsame.zombie c hc).mp hz)
    have hp0 : p ≠ 0 := fun hzero => hring.null (hlive ▸ hzero ▸ hp)
    subst hparent
    exact absurd hb (state_wakeParent_ne_blocked hp0)
  · obtain ⟨s', hexit⟩ := hexits.ends
    obtain ⟨-, -, temp', s₁, hfind', hs₁, hne, hdead, hs'⟩ :=
      sysExit_some hexits.settled.current_ne hexit
    cases hfind.symm.trans hfind'
    obtain rfl : s = s₁ := by rw [hs₁, hwake, hcur, ← hs]
    refine ⟨s₀, status, hexits, hcur'.trans hcur, ?_, hne, hcur' ▸ hcur ▸ hdead,
      hexit.trans (hs' ▸ rfl)⟩
    rw [hcur', hsame.parent _ h.current]
    exact state_wakeParent_ne_blocked

theorem pick (hph : m.phase m.self = .woken) :
    m.kernel.pickNextTask ≠ 0 ∧ m.kernel.pickNextTask ≠ m.self ∧
      Inv X (m.go m.kernel (.going m.kernel.pickNextTask)) := by
  obtain ⟨s₀, status, hexits, hcur, hparent, hne, hdead, hexit⟩ := h.shape_of hph
  refine ⟨hne, hdead, h.move ⟨h.shape_of hph, rfl⟩ (h.shut_of hph :) ?_ ?_⟩
  · simp
  · simp [hph]

theorem leave {next : ℕ} (hph : m.phase m.self = .going next) :
    Inv X (m.go (m.kernel.run next) .gone) ∧
      (m.go (m.kernel.run next) .gone).Completed m.self := by
  have hshut := h.shut_of hph
  obtain ⟨⟨s₀, status, hexits, hcur, hparent, hne, hdead, hexit⟩, rfl⟩ := h.shape_of hph
  have hsettled := hexits.settled.exit hexits.parent hexit
  have hframe := sysExit_frame hexits.settled.current_ne hexit
  have hready := ((pickNextTask_cases m.kernel).resolve_left hne).resolve_left hdead
  have hsame : SameFamily m.kernel (m.kernel.run m.kernel.pickNextTask) :=
    sameFamily_run (by simp [hready])
  have hz : (m.kernel.run m.kernel.pickNextTask).state m.kernel.currentTask = .zombie := by
    rw [hcur]
    exact (hframe.zombie _ hexits.settled.current_live).mpr (by simp)
  constructor
  · apply h.switch hsettled hsame (fun _ _ hb => blocked_of_run hb) (.inr ⟨rfl, hz⟩) hshut
    · simp
    · simp [hph]
  · refine ⟨phase_go_self, hshut, hsettled.notOnQueue hz, ?_⟩
    rw [kernel_go, hsame.parent _ h.current]
    exact fun hp0 hb => hparent hp0 (blocked_of_run hb)

theorem look (hshape : Shape X m.kernel ph) (hshut : ph.Shut (m.fdTable m.self))
    (hawaits : ph.awaits = none) (hwoken : ¬ (m.phase m.self).Unwoken) :
    Inv X (m.go m.kernel ph) :=
  h.move hshape hshut (hawaits ▸ nofun) fun hun => absurd hun hwoken

theorem unlist (hph : m.phase m.self = .reaping curr)
    (hun : m.kernel.unregister curr = some s) : Inv X (m.go s (.unlisted curr)) := by
  obtain ⟨hs, hlive, hz⟩ := h.shape_of hph
  obtain ⟨hlive', hstate, -, hparent, -, hcur⟩ := unregister_frame hun
  have hkeeps : Keeps m.kernel s := by
    refine ⟨hlive'.subset, fun t _ _ => by rw [hstate], fun t _ => by rw [hparent], fun t _ => ?_⟩
    rw [pid_unregister hun]
  refine h.stay hkeeps hcur (hlive' ▸ h.current) ?_ ⟨m.kernel, hs, hlive, hz, hun⟩ trivial
  apply h.awake.go hkeeps
  · exact fun t _ _ hb => by rwa [hstate] at hb
  · simp
  · exact fun hz => .inr ⟨by rwa [hstate] at hz, by simp [hph]⟩

theorem free (hph : m.phase m.self = .unlisted curr) :
    ¬ m.kernel.OnQueue curr ∧ Inv X (m.go (m.kernel.freeTask curr) .out) := by
  obtain ⟨s₀, hs, hlive, hz, hun⟩ := h.shape_of hph
  obtain ⟨hlive', hstate, hnext, -, hqueue, hcur⟩ := unregister_frame hun
  have hreaped := hs.reap hlive hz hun
  have hkeeps : Keeps m.kernel (m.kernel.freeTask curr) :=
    ⟨Finset.erase_subset _ _, fun _ _ _ => Iff.rfl, fun _ _ => rfl, fun _ _ => rfl⟩
  constructor
  · rintro ⟨l, hl, hmem⟩
    exact hs.notOnQueue hz ⟨l, hl.congr hqueue.symm fun u _ => congrFun hnext.symm u, hmem⟩
  · refine h.stay hkeeps rfl hreaped.current_live ?_ hreaped trivial
    apply h.awake.go hkeeps (fun _ _ _ hb => hb)
    · simp
    · exact fun hz => .inr ⟨hz, by simp [hph]⟩

theorem block (hph : m.phase m.self = .blocking target) :
    Inv X (m.go (m.kernel.setState m.self .blocked) (.parked target)) := by
  obtain ⟨hs, hnone⟩ := h.shape_of hph
  have hsame : SameFamily m.kernel (m.kernel.setState m.self .blocked) :=
    sameFamily_setState (by decide) hs.alive
  have hkeeps := keeps_of_sameFamily hsame
  refine h.stay hkeeps rfl h.current ?_ hs.block trivial
  apply h.awake.go hkeeps
  · exact fun t _ ht hb => by simpa [ht] using hb
  · rintro target' ⟨⟩ -
    refine .inr fun c hc hparent hmatch hz => hnone c hc ?_ ((hsame.zombie c hc).mp hz)
    rw [parent_setState] at hparent
    rw [pid_setState] at hmatch
    exact decide_eq_true ⟨hparent, hmatch⟩
  · simp

theorem schedule (hs : Settled X m.kernel) (hopen : ph.Open)
    (hawaits : ∀ target, ph.awaits = some target → (m.phase m.self).awaits = some
      target) (hwoken : ¬ (m.phase m.self).Unwoken) :
    Inv X (m.go m.kernel.schedule ph) := by
  have hshut : ph.Shut (m.fdTable m.self) := by
    cases ph <;> trivial
  exact h.switch hs.schedule sameFamily_schedule (fun _ _ hb => blocked_of_schedule hb)
    (.inl hopen) hshut hawaits hwoken

theorem tick (hopen : (m.phase m.self).Open) :
    Inv X { m with kernel := m.kernel.schedule } := by
  have hstay : m.go m.kernel.schedule (m.phase m.self) =
      { m with kernel := m.kernel.schedule } := by
    rw [Machine.go, update_eq_self]
  have hshape := h.shape
  rw [← hstay]
  refine h.schedule ?_ hopen (fun _ htarget => htarget) ?_
  · cases hph : m.phase m.self <;> rw [hph] at hopen hshape <;>
      first | exact hshape | exact hopen.elim
  · cases hph : m.phase m.self <;> rw [hph] at hopen <;>
      first | exact id | exact hopen.elim

theorem create (hph : m.phase m.self = .out) (hcall : Creates m.kernel s)
    (fds : ℕ → Bool) :
    Inv X ⟨s, fun t => if t ∈ m.kernel.tasks.live then m.phase t else .out,
      fun t => if t ∈ m.kernel.tasks.live then m.fdTable t else fds⟩ := by
  have hs : Settled X m.kernel := h.shape_of hph
  obtain ⟨hcur, hlive, hold, hnew⟩ := hcall.frame hs
  have hsettled := Settled.creates hs hcall
  have hzombie : ∀ t ∈ s.tasks.live, s.state t = .zombie →
      t ∈ m.kernel.tasks.live ∧ m.kernel.state t = .zombie := by
    intro t ht hz
    by_cases hmem : t ∈ m.kernel.tasks.live
    · exact ⟨hmem, (hold t hmem).1 ▸ hz⟩
    · simp [hnew t ht hmem] at hz
  exact {
    current := hsettled.current_live
    resting := by
      intro t ht hne
      by_cases hmem : t ∈ m.kernel.tasks.live
      · simpa only [if_pos hmem] using h.resting t hmem (hcur ▸ hne)
      · simp only [if_neg hmem]
        exact .inl trivial
    shape := by
      simp only [hcur, if_pos h.current, hph]
      exact hsettled
    shut := by
      intro t ht
      by_cases hmem : t ∈ m.kernel.tasks.live
      · simpa only [if_pos hmem] using h.shut t hmem
      · simp only [if_neg hmem]
        trivial
    dead := by
      intro t ht
      by_cases hmem : t ∈ m.kernel.tasks.live
      · simp only [if_pos hmem]
        rw [(hold t hmem).1]
        exact h.dead t hmem
      · simp [hmem]
    awake := by
      rintro p hp target ⟨hb, hawaits⟩ c hc hparent hmatch hz
      obtain ⟨hcm, hz⟩ := hzombie c hc hz
      obtain ⟨-, hpc, hpid⟩ := hold c hcm
      by_cases hmem : p ∈ m.kernel.tasks.live
      · simp only [if_pos hmem, if_pos hcm] at hawaits ⊢
        simp only [hpc] at hparent
        simp only [hpid] at hmatch
        simp only [(hold p hmem).1] at hb
        rw [hcur]
        exact h.awake p hmem target ⟨hb, hawaits⟩ c hcm hparent hmatch hz
      · simp [if_neg hmem] at hawaits }

theorem exiting (hexiting : (m.phase m.self).Exiting) :
    ∃ m', m.own = some m' ∧ Inv X m' ∧ (m'.Completed m.self ∨
      m'.self = m.self ∧
      (m'.phase m.self).Exiting ∧
        (m'.phase m.self).left < (m.phase m.self).left) := by
  cases hph : m.phase m.self with
  | closing fd =>
    have hshape := h.shape_of hph
    have hshut := h.shut_of hph
    by_cases hfd : fd < 32
    · refine ⟨(m.close fd).go m.kernel (.closing (fd + 1)), by simp [own, hph, hfd], ?_,
        .inr ⟨rfl, ?_⟩⟩
      · refine (h.close fd).move hshape ⟨hfd, fun i hi => ?_⟩ (by simp)
          fun _ => trivial
        by_cases heq : i = fd
        · simp [Machine.close, heq]
        · simpa [Machine.close, heq] using hshut.2 i (by omega)
      · have hself : ((m.close fd).go m.kernel (.closing (fd + 1))).phase
            m.self = .closing (fd + 1) := phase_go_self
        simp only [hself, Phase.Exiting, Phase.left, true_and]
        omega
    · obtain rfl : fd = 32 := by
        have := hshut.1
        omega
      obtain ⟨s₀, status, hexits, hs⟩ := id hshape
      obtain ⟨s', hexit⟩ := hexits.ends
      obtain ⟨hself, -⟩ := sysExit_some hexits.settled.current_ne hexit
      have hnext : m.kernel.next m.kernel.currentTask ≠ m.kernel.currentTask := by
        rw [hs, next_markZombie]
        exact hself
      refine ⟨m.go m.kernel .unlinking, by simp [own, hph, hnext], ?_, .inr ⟨rfl, ?_⟩⟩
      · exact h.move hshape hshut.2 (by simp) fun _ => trivial
      · simp
  | unlinking =>
    obtain ⟨s₀, status, hexits, hs⟩ := h.shape_of hph
    obtain ⟨s', hexit⟩ := hexits.ends
    obtain ⟨-, hqueue, temp, -, hfind, -⟩ := sysExit_some hexits.settled.current_ne hexit
    have hfind' : Circle.before m.kernel.next m.kernel.currentTask m.kernel.fuel
        m.kernel.readyQueue = some temp := by
      rw [hs, next_markZombie]
      exact hfind
    have hqueue' : m.kernel.readyQueue ≠ 0 := by
      rw [hs]
      exact hqueue
    refine ⟨_, by simp [own, hph, hqueue', hfind'], h.unlink hph hfind', .inr ⟨rfl, ?_⟩⟩
    simp
  | unlinked =>
    refine ⟨_, by simp [own, hph], h.wake hph, .inr ⟨currentTask_wakeParent, ?_⟩⟩
    simp
  | woken =>
    obtain ⟨hne, hdead, hpick⟩ := h.pick hph
    refine ⟨_, by simp [own, hph, hne, hdead], hpick, .inr ⟨rfl, ?_⟩⟩
    simp
  | going next =>
    obtain ⟨hleave, hcompleted⟩ := h.leave hph
    exact ⟨_, by simp [own, hph], hleave, .inl hcompleted⟩
  | halted => exact (h.shape_of hph).elim
  | out | gone | scanning | reaping | unlisted | blocking | parked | switching | waiting
  | yielding =>
    rw [hph] at hexiting
    exact hexiting.elim

theorem completes (hexiting : (m.phase m.self).Exiting) :
    ∃ n m', Takes step Undisturbed m (List.replicate n .own) m' ∧
      m'.Completed m.self := by
  induction hn : (m.phase m.self).left using Nat.strong_induction_on
    generalizing m with
  | _ left ih =>
    obtain ⟨m₁, hown, h₁, hdone | ⟨hcur, hexiting₁, hless⟩⟩ := h.exiting hexiting
    · exact ⟨1, m₁, .cons trivial hown .nil, hdone⟩
    · rw [hn, ← hcur] at hless
      obtain ⟨n, m', hrun, hdone⟩ := ih _ hless h₁ (hcur ▸ hexiting₁) rfl
      exact ⟨n + 1, m', .cons trivial hown hrun, hcur ▸ hdone⟩

theorem own (hstep : m.own = some m') : Inv X m' := by
  have hcall := hstep
  simp only [Machine.own] at hcall
  cases hph : m.phase m.self with
  | closing | unlinking | unlinked | woken | going | halted =>
    obtain ⟨m₁, hown, h₁, -⟩ := h.exiting (hph ▸ trivial)
    cases hown.symm.trans hstep
    exact h₁
  | out | gone => simp [Machine.own, hph] at hstep
  | scanning target curr hasChildren =>
    rw [hph] at hcall
    cases hcall
    obtain ⟨hs, hscan⟩ := h.shape_of hph
    exact h.look (shape_scan hs hscan) shut_scan awaits_scan (by simp [hph])
  | reaping curr =>
    rw [hph] at hcall
    obtain ⟨s, hun, rfl⟩ := map_eq_some_iff.mp hcall
    exact h.unlist hph hun
  | unlisted curr =>
    rw [hph] at hcall
    cases hcall
    exact (h.free hph).2
  | blocking target =>
    rw [hph] at hcall
    cases hcall
    exact h.block hph
  | parked target =>
    rw [hph] at hcall
    cases hcall
    exact h.move ⟨h.shape_of hph, rfl⟩ trivial (by simp [hph])
      (by simp [hph])
  | switching target next =>
    rw [hph] at hcall
    cases hcall
    obtain ⟨hs, rfl⟩ := h.shape_of hph
    exact h.schedule hs trivial (by simp [hph]) (by simp [hph])
  | waiting target =>
    rw [hph] at hcall
    cases hcall
    have hs : Settled X m.kernel := h.shape_of hph
    exact h.look ⟨hs, scanned_start hs target⟩ trivial rfl (by simp [hph])
  | yielding next =>
    rw [hph] at hcall
    cases hcall
    obtain ⟨hs, rfl⟩ := h.shape_of hph
    exact h.schedule hs trivial (by simp) (by simp [hph])

theorem begin (hph : m.phase m.self = .out) {a : Act} (hun : m.Undisturbed a)
    (hstep : m.begin a = some m') : Inv X m' := by
  have hs : Settled X m.kernel := h.shape_of hph
  have hout : ¬ (m.phase m.self).Unwoken := by simp [hph]
  cases a with
  | exit status =>
    cases hstep
    exact h.exit hph hun status
  | waitpid target =>
    cases hstep
    exact h.look ⟨hs, scanned_start hs target⟩ trivial rfl hout
  | yield =>
    cases hstep
    exact h.look ⟨hs, rfl⟩ trivial rfl hout
  | create call mem fds =>
    rw [Machine.begin] at hstep
    split_ifs at hstep with hmakes
    obtain ⟨s', hcall, rfl⟩ := map_eq_some_iff.mp hstep
    exact h.create hph (creates_of_makes hmakes hcall) fds
  | own | tick => cases hstep

theorem step {a : Act} (hun : m.Undisturbed a) (hstep : m.step a = some m') : Inv X m' := by
  by_cases hown : a = .own
  · subst hown
    exact h.own hstep
  · by_cases htick : a = .tick
    · subst htick
      cases hstep
      exact h.tick hun
    · obtain ⟨hph, hbegin⟩ := step_begin hown htick hstep
      exact h.begin hph hun hbegin

end Inv

end

end Machine

end Aevros.Proc
