import Aevros.Proc.Calls

/-! # The ready queue as a circle

What putting a task into the queue and taking one out do to the circle of its tasks, and which
task `pick_next_task` can come to.
-/

namespace Aevros.Proc.Kernel

open Cells Circle Function List

variable {s s' s₁ : Kernel} {l l' : List ℕ} {K : Set ℕ} {t u p : ℕ}

/-- The links from `ready_queue` go around through the tasks of `l`; an empty queue is `NULL`. -/
def Queue (s : Kernel) (l : List ℕ) : Prop :=
  l = [] ∧ s.readyQueue = 0 ∨ s.readyQueue ≠ 0 ∧ IsCircle s.next s.readyQueue l

def OnQueue (s : Kernel) (t : ℕ) : Prop := ∃ l, s.Queue l ∧ t ∈ l

theorem length_le_card (hnd : l.Nodup) (hlive : ∀ t ∈ l, t ∈ s.tasks.live) :
    l.length ≤ s.tasks.live.card := by
  have hsub : l.toFinset ⊆ s.tasks.live := fun t ht => hlive t (mem_toFinset.mp ht)
  have hcard := Finset.card_le_card hsub
  rwa [toFinset_card_of_nodup hnd] at hcard

/-- What no change of states and links touches. -/
structure SameTasks (s s' : Kernel) : Prop where
  live : s'.tasks.live = s.tasks.live
  currentTask : s'.currentTask = s.currentTask
  workerTask : s'.workerTask = s.workerTask
  pid : s'.pid = s.pid
  parent : s'.parent = s.parent
  allNext : s'.allNext = s.allNext
  allTasks : s'.allTasks = s.allTasks

theorem SameTasks.refl (s : Kernel) : SameTasks s s := ⟨rfl, rfl, rfl, rfl, rfl, rfl, rfl⟩

theorem SameTasks.trans {s₁ : Kernel} (h : SameTasks s s₁) (h' : SameTasks s₁ s') :
    SameTasks s s' :=
  ⟨h'.live.trans h.live, h'.currentTask.trans h.currentTask, h'.workerTask.trans h.workerTask,
    h'.pid.trans h.pid, h'.parent.trans h.parent, h'.allNext.trans h.allNext,
    h'.allTasks.trans h.allTasks⟩

theorem sameTasks_setState (s : Kernel) (t : ℕ) (x : TaskState) : SameTasks s (s.setState t x) :=
  ⟨rfl, rfl, rfl, pid_setState, parent_setState, allNext_setState, rfl⟩

theorem sameTasks_setNext (s : Kernel) (t n : ℕ) : SameTasks s (s.setNext t n) :=
  ⟨rfl, rfl, rfl, pid_setNext, parent_setNext, allNext_setNext, rfl⟩

theorem sameTasks_setQueue (s : Kernel) (t : ℕ) : SameTasks s (s.setQueue t) :=
  ⟨rfl, rfl, rfl, rfl, rfl, rfl, rfl⟩

@[simp] theorem state_unlink : (s.unlink p t).state = s.state := by simp [Kernel.unlink]

theorem next_unlink : (s.unlink p t).next = update s.next p (s.next t) := by
  simp [Kernel.unlink]

theorem sameTasks_unlink (s : Kernel) (p t : ℕ) : SameTasks s (s.unlink p t) :=
  (sameTasks_setNext s p _).trans (sameTasks_setQueue _ _)

/-- What `pick_next_task` can come to: nothing, the current task, or a task that is ready. -/
def Picks (s : Kernel) (K : Set ℕ) (t : ℕ) : Prop :=
  t = 0 ∨ t = s.currentTask ∨ t ∈ K ∧ s.state t = .ready

theorem picks_pickRest (h : s.Picks K t) : s.Picks K (s.pickRest t) := by
  rw [pickRest]
  split_ifs
  · exact .inr (.inl rfl)
  · exact h

theorem picks_pickFrom (hK : ∀ t ∈ K, s.next t ∈ K) {start guard fallback : ℕ} (ht : t ∈ K)
    (hfall : s.Picks K fallback) : s.Picks K (s.pickFrom start guard t fallback) := by
  induction guard generalizing t fallback with
  | zero => exact picks_pickRest hfall
  | succ guard ih =>
    have hfall' : s.Picks K (if fallback = 0 ∧ s.state t = .ready then t else fallback) := by
      split_ifs with hnew
      · exact .inr (.inr ⟨ht, hnew.2⟩)
      · exact hfall
    by_cases hready : s.state t = .ready ∧ t ≠ s.currentTask
    · rw [pickFrom, if_pos hready]
      exact .inr (.inr ⟨ht, hready.1⟩)
    · rw [pickFrom, if_neg hready]
      by_cases hend : s.next t = 0 ∨ s.next t = start
      · simp only [if_pos hend]
        exact picks_pickRest hfall'
      · simp only [if_neg hend]
        exact ih (hK t ht) hfall'

theorem picks_pickNextTask (hK : ∀ t ∈ K, s.next t ∈ K)
    (hqueue : s.readyQueue ≠ 0 → s.readyQueue ∈ K)
    (hahead : s.next s.currentTask ≠ 0 → s.next s.currentTask ∈ K) :
    s.Picks K s.pickNextTask := by
  rw [pickNextTask]
  split_ifs with hzero hcur
  · exact .inl rfl
  · exact picks_pickFrom hK (hahead hcur.2) (.inl rfl)
  · exact picks_pickFrom hK (hqueue hzero) (.inl rfl)

theorem pickFrom_eq {start guard fallback : ℕ} (hl : Leads s.next t l start) (hne : l ≠ [])
    (hstart : start ∉ l.tail) (hnull : 0 ∉ l) (hlen : l.length ≤ guard)
    (hfall : s.pickRest fallback = s.pickRest 0) : s.pickFrom start guard t fallback =
      (l.find? fun u => s.state u = .ready ∧ u ≠ s.currentTask).getD (s.pickRest 0) := by
  induction l generalizing t guard fallback with
  | nil => exact absurd rfl hne
  | cons x l ih =>
    obtain ⟨rfl, hl⟩ := hl
    obtain ⟨guard, rfl⟩ : ∃ n, guard = n + 1 := ⟨guard - 1, by simp at hlen; omega⟩
    rw [pickFrom]
    by_cases hfound : s.state t = .ready ∧ t ≠ s.currentTask
    · rw [if_pos hfound, find?_cons_of_pos (by simpa using hfound), Option.getD_some]
    rw [if_neg hfound, find?_cons_of_neg (by simpa using hfound)]
    have hfall' : s.pickRest (if fallback = 0 ∧ s.state t = .ready then t else fallback) =
        s.pickRest 0 := by
      split_ifs with hnew
      · -- the only ready task that is passed over is the current one
        obtain rfl : t = s.currentTask := by_contra fun hne => hfound ⟨hnew.2, hne⟩
        have hzero : s.currentTask ≠ 0 := fun h => hnull (by simp [h])
        rw [pickRest, pickRest, if_pos ⟨hzero, hnew.2⟩, if_pos ⟨hzero, hnew.2⟩]
      · exact hfall
    cases l with
    | nil => simp [leads_nil.mp hl, hfall']
    | cons y l =>
      have hgo : ¬ (s.next t = 0 ∨ s.next t = start) := by
        rw [hl.1]
        rintro (rfl | rfl)
        · simp at hnull
        · simp at hstart
      simp only [if_neg hgo]
      exact ih hl (cons_ne_nil y l) (fun hmem => hstart (mem_of_mem_tail hmem))
        (fun hmem => hnull (.tail t hmem)) (by simpa using hlen) hfall'

section

variable (h : s.Queue l)

include h

namespace Queue

theorem unique (h' : s.Queue l') : l = l' := by
  rcases h with ⟨rfl, hnull⟩ | ⟨hne, hc⟩
  · rcases h' with ⟨rfl, -⟩ | ⟨hne, -⟩
    · rfl
    · exact absurd hnull hne
  · rcases h' with ⟨-, hnull⟩ | ⟨-, hc'⟩
    · exact absurd hnull hne
    · exact hc.unique hc'

theorem onQueue_iff : s.OnQueue t ↔ t ∈ l :=
  ⟨fun ⟨_, h', ht⟩ => h.unique h' ▸ ht, fun ht => ⟨l, h, ht⟩⟩

theorem nodup : l.Nodup := by
  rcases h with ⟨rfl, -⟩ | ⟨-, hc⟩
  · exact nodup_nil
  · exact hc.nodup

theorem circle (ht : t ∈ l) : s.readyQueue ≠ 0 ∧ IsCircle s.next s.readyQueue l := by
  rcases h with ⟨rfl, -⟩ | hc
  · simp at ht
  · exact hc

theorem next_mem (ht : t ∈ l) : s.next t ∈ l := (h.circle ht).2.next_mem ht

theorem congr (hq : s'.readyQueue = s.readyQueue) (hnext : ∀ t ∈ l, s'.next t = s.next t) :
    s'.Queue l := by
  rcases h with ⟨rfl, hnull⟩ | ⟨hne, hc⟩
  · exact .inl ⟨rfl, hq.trans hnull⟩
  · exact .inr ⟨hq ▸ hne, hq ▸ hc.congr hnext⟩

theorem length_le (hlive : ∀ t ∈ l, t ∈ s.tasks.live) : l.length ≤ s.fuel :=
  (length_le_card h.nodup hlive).trans (Nat.le_succ _)

theorem taskAddReady (hlive : ∀ t ∈ l, t ∈ s.tasks.live) (ht : t ≠ 0) (hnot : t ∉ l) :
    ∃ s', s.taskAddReady t = some s' ∧ s'.Queue (l ++ [t]) ∧
      s'.state = update s.state t .ready ∧ SameTasks s s' ∧
      ∀ u, s'.next u = s.next u ∨ s'.next u ∈ l ++ [t] := by
  have hsame := sameTasks_setState s t .ready
  have hfuel := h.length_le hlive
  rcases h with ⟨rfl, hnull⟩ | ⟨hne, hc⟩
  · refine ⟨((s.setState t .ready).setNext t t).setQueue t, ?_, .inr ⟨ht, ?_⟩, by simp,
      hsame.trans ((sameTasks_setNext _ t t).trans (sameTasks_setQueue _ t)), fun u => ?_⟩
    · simp [Kernel.taskAddReady, ht, hnull]
    · simpa using isCircle_singleton s.next t
    · by_cases hu : u = t
      · simp [hu]
      · simp [hu]
  · obtain ⟨q, hq, hlast, hbefore⟩ := hc.before_eq hc.head_mem hfuel
    refine ⟨((s.setState t .ready).setNext q t).setNext t s.readyQueue, ?_, .inr ⟨hne, ?_⟩,
      by simp, hsame.trans ((sameTasks_setNext _ q t).trans (sameTasks_setNext _ t _)),
      fun u => ?_⟩
    · simp [Kernel.taskAddReady, ht, hne, hbefore]
    · simpa using hc.concat hq hlast hnot
    · by_cases hu : u = t
      · simp [hu, hc.head_mem]
      · by_cases huq : u = q
        · subst huq
          simp [hu]
        · simp [hu, huq]

theorem unlink (hnull : 0 ∉ l) (hp : p ∈ l) (hpt : s.next p = t) (hne : s.next t ≠ t) :
    (s.unlink p t).Queue (l.erase t) := by
  have hc := (h.circle hp).2.erase hp hpt hne
  refine .inr ⟨fun hzero => hnull ?_, ?_⟩
  · change (if s.readyQueue = t then s.next t else s.readyQueue) = 0 at hzero
    exact mem_of_mem_erase (hzero ▸ hc.head_mem)
  · rw [next_unlink]
    exact hc

theorem taskRemoveReady (hlive : ∀ t ∈ l, t ∈ s.tasks.live) (hnull : 0 ∉ l) (ht : t ≠ 0) :
    ∃ s', s.taskRemoveReady t = some s' ∧ s'.Queue (l.erase t) ∧
      s'.state = (if l = [] then s.state else update s.state t .blocked) ∧
      SameTasks s s' ∧ ∀ u, s'.next u = s.next u ∨ s'.next u ∈ l := by
  have hsame := sameTasks_setState s t .blocked
  have hfuel := h.length_le hlive
  rcases h with ⟨rfl, hzero⟩ | ⟨hne, hc⟩
  · refine ⟨s, ?_, .inl ⟨rfl, hzero⟩, rfl, .refl s, fun u => .inl rfl⟩
    simp [Kernel.taskRemoveReady, hzero]
  · rw [if_neg hc.ne_nil]
    by_cases halone : s.readyQueue = t ∧ s.next s.readyQueue = s.readyQueue
    · refine ⟨(s.setState t .blocked).setQueue 0, ?_, .inl ⟨?_, rfl⟩, by simp,
        hsame.trans (sameTasks_setQueue _ 0), fun u => .inl (by simp)⟩
      · simp only [Kernel.taskRemoveReady, ht, hne, or_self, if_false, readyQueue_setState,
          next_setState, if_pos halone]
      · rw [hc.eq_singleton halone.2, halone.1, erase_cons_head]
    · obtain ⟨q, hq, hfind, htq⟩ := hc.beforeOrLast_eq (t := t) hfuel
      have hcall : s.taskRemoveReady t = some (if s.next q = t then
          (s.setState t .blocked).unlink q t else s.setState t .blocked) := by
        simp [Kernel.taskRemoveReady, ht, hne, halone, hfind]
      rw [hcall]
      by_cases hqt : s.next q = t
      · have hnext : s.next t ≠ t := by
          intro hself
          obtain rfl := hc.eq_head (hqt ▸ hc.next_mem hq) hself
          exact halone ⟨rfl, hself⟩
        refine ⟨_, by rw [if_pos hqt], ?_, by simp, hsame.trans (sameTasks_unlink _ q t),
          fun u => ?_⟩
        · have hqueue : (s.setState t .blocked).Queue l := .inr ⟨hne, by simpa using hc⟩
          exact hqueue.unlink hnull hq (by simpa using hqt) (by simpa using hnext)
        · rw [next_unlink]
          by_cases hu : u = q
          · subst hu
            exact .inr (by simpa using hc.next_mem (hqt ▸ hc.next_mem hq))
          · exact .inl (by simp [hu])
      · have htl : t ∉ l := fun hmem => hqt (htq hmem)
        refine ⟨_, by rw [if_neg hqt], ?_, by simp, hsame, fun u => .inl (by simp)⟩
        rw [erase_of_not_mem htl]
        exact .inr ⟨hne, by simpa using hc⟩

theorem pick_ready (hnull : 0 ∉ l) (hahead : s.next s.currentTask ∈ l)
    (hcur : s.currentTask ≠ 0) (hlen : l.length ≤ 0xFFFF)
    (hready : ∃ u ∈ l, s.state u = .ready ∧ u ≠ s.currentTask) :
    s.pickNextTask ∈ l ∧ s.state s.pickNextTask = .ready ∧ s.pickNextTask ≠ s.currentTask := by
  obtain ⟨hne, hc⟩ := h.circle hahead
  obtain ⟨l', hc', hperm⟩ := hc.rotate hahead
  have hmem : ∀ {u : ℕ}, u ∈ l' ↔ u ∈ l := hperm.mem_iff
  have hnext : s.next s.currentTask ≠ 0 := fun hzero => hnull (hzero ▸ hahead)
  have hstart : s.next s.currentTask ∉ l'.tail := by
    obtain ⟨rest, rfl⟩ := hc'.head
    exact (nodup_cons.mp hc'.nodup).1
  rw [pickNextTask, if_neg hne]
  simp only [if_pos (And.intro hcur hnext)]
  rw [pickFrom_eq hc'.leads hc'.ne_nil hstart (fun hzero => hnull (hmem.mp hzero))
    (hperm.length_eq ▸ hlen) rfl]
  cases hfind : l'.find? fun u => s.state u = .ready ∧ u ≠ s.currentTask with
  | none =>
    obtain ⟨u, hu, hu'⟩ := hready
    exact absurd (decide_eq_true hu') (find?_eq_none.mp hfind u (hmem.mpr hu))
  | some v => exact ⟨hmem.mp (mem_of_find?_eq_some hfind), by simpa using find?_some hfind⟩

end Queue

end

section Enter

variable {name : List Byte}

theorem live_enter : (s.enter p name).tasks.live = insert p s.tasks.live := by
  rw [enter, taskRegisterAll]
  split_ifs <;> rfl

theorem readyQueue_enter : (s.enter p name).readyQueue = s.readyQueue := by
  rw [enter, taskRegisterAll]
  split_ifs <;> rfl

theorem currentTask_enter : (s.enter p name).currentTask = s.currentTask := by
  rw [enter, taskRegisterAll]
  split_ifs <;> rfl

theorem get_enter (hp : p ≠ 0) : (s.enter p name).tasks.get t = if t = p then
    ⟨s.nextPid, .ready, 0, s.allTasks, s.currentTask, 0, name⟩ else s.tasks.get t := by
  rw [enter, taskRegisterAll, if_neg hp]
  change ((s.newTask p name).tasks.modify p (Tcb.withAllNext s.allTasks)).get t = _
  by_cases ht : t = p
  · subst ht
    rw [if_pos rfl, get_modify_self]
    change Tcb.withAllNext _ ((s.tasks.put t _).get t) = _
    rw [get_put_self]
    rfl
  · rw [if_neg ht, get_modify_of_ne ht]
    exact get_put_of_ne ht

/-- Nothing, a block that is taken and given back, or a new task in the queue. -/
inductive Creates (s : Kernel) : Kernel → Prop
  | nothing : Creates s s
  | gaveBack {p : ℕ} {tcb : Tcb} {pid : Word} : p ∉ s.tasks.live →
    Creates s { s with tasks := (s.tasks.put p tcb).free p, nextPid := pid }
  | entered {p : ℕ} {name : List Byte} {s' : Kernel} : p ∉ s.tasks.live → p ≠ 0 →
    (s.enter p name).taskAddReady p = some s' → Creates s s'

variable {mem : Supply} {status : Word}

theorem creates_createProcess {r : ℕ × Kernel} (hr : s.createProcess name mem = r)
    (hcall : (if r.1 = 0 then some r.2 else r.2.taskAddReady r.1) = some s') :
    Creates s s' := by
  rw [createProcess] at hr
  split_ifs at hr with hnone hstack
  · subst hr
    cases hcall
    exact .nothing
  · subst hr
    cases hcall
    exact .gaveBack (fresh_notMem hnone)
  · subst hr
    rw [if_neg hnone] at hcall
    exact .entered (fresh_notMem hnone) hnone hcall

theorem creates_taskCreateKernel (hcall : s.taskCreateKernel mem = some s') : Creates s s' :=
  creates_createProcess rfl hcall

theorem creates_taskCreateUser (hcall : s.taskCreateUser mem = some s') : Creates s s' := by
  rw [taskCreateUser] at hcall
  split_ifs at hcall
  · cases hcall
    exact .nothing
  · exact creates_createProcess rfl hcall

theorem creates_doFork (hcall : s.doFork mem = some s') : Creates s s' := by
  rw [doFork] at hcall
  split_ifs at hcall with hnone
  · cases hcall
    exact .nothing
  · rw [not_or] at hnone
    cases hcall
    exact .gaveBack (fresh_notMem hnone.2)
  · rw [not_or] at hnone
    exact .entered (fresh_notMem hnone.2) hnone.2 hcall

theorem creates_sysExec {path : List Byte} {loads : Bool}
    (hcall : s.sysExec path loads mem = some s') : Creates s s' := by
  rw [sysExec] at hcall
  split_ifs at hcall with hnone
  · cases hcall
    exact .nothing
  · rw [not_or] at hnone
    cases hcall
    exact .gaveBack (fresh_notMem hnone.2)
  · rw [not_or] at hnone
    exact .entered (fresh_notMem hnone.2) hnone.2 hcall

theorem creates_aevrospointRestore {snap : Option Snapshot}
    (hcall : s.aevrospointRestore name snap mem = some s') : Creates s s' := by
  unfold aevrospointRestore at hcall
  by_cases hmany : 1 < s.countTasksNamed name
  · rw [if_pos hmany] at hcall
    cases hcall
    exact .nothing
  · rw [if_neg hmany] at hcall
    cases snap with
    | none =>
      cases hcall
      exact .nothing
    | some snap =>
      dsimp only at hcall
      split_ifs at hcall with hnone
      · cases hcall
        exact .nothing
      · cases hcall
        exact .gaveBack (fresh_notMem hnone)
      · cases hcall
        exact .gaveBack (fresh_notMem hnone)
      · exact .entered (fresh_notMem hnone) hnone hcall

end Enter

@[simp] theorem state_markZombie : (s.markZombie t status).state = update s.state t .zombie := by
  funext u
  by_cases hu : u = t
  · simp [state, markZombie, hu]
  · simp [state, markZombie, get_modify_of_ne hu, update_of_ne hu]

@[simp] theorem next_markZombie : (s.markZombie t status).next = s.next := by
  have hfield : ∀ tcb : Tcb, ({ tcb with state := .zombie, exitCode := status } : Tcb).next =
      tcb.next := fun _ => rfl
  exact funext (get_modify_field hfield)

@[simp] theorem pid_markZombie : (s.markZombie t status).pid = s.pid := by
  have hfield : ∀ tcb : Tcb, ({ tcb with state := .zombie, exitCode := status } : Tcb).pid =
      tcb.pid := fun _ => rfl
  exact funext (get_modify_field hfield)

@[simp] theorem parent_markZombie : (s.markZombie t status).parent = s.parent := by
  have hfield : ∀ tcb : Tcb, ({ tcb with state := .zombie, exitCode := status } : Tcb).parent =
      tcb.parent := fun _ => rfl
  exact funext (get_modify_field hfield)

@[simp] theorem allNext_markZombie : (s.markZombie t status).allNext = s.allNext := by
  have hfield : ∀ tcb : Tcb, ({ tcb with state := .zombie, exitCode := status } : Tcb).allNext =
      tcb.allNext := fun _ => rfl
  exact funext (get_modify_field hfield)

theorem sysExit_some (hcur : s.currentTask ≠ 0) (hcall : s.sysExit status = some s') :
    s.next s.currentTask ≠ s.currentTask ∧ s.readyQueue ≠ 0 ∧
      ∃ temp s₁, before s.next s.currentTask s.fuel s.readyQueue = some temp ∧
        s₁ = ((s.markZombie s.currentTask status).unlink temp s.currentTask).wakeParent
          s.currentTask ∧
        s₁.pickNextTask ≠ 0 ∧ s₁.pickNextTask ≠ s.currentTask ∧ s' = s₁.run s₁.pickNextTask := by
  have hnext : (s.markZombie s.currentTask status).next = s.next := next_markZombie
  rw [sysExit, if_neg hcur] at hcall
  by_cases hend : (s.markZombie s.currentTask status).next s.currentTask = s.currentTask ∨
      (s.markZombie s.currentTask status).readyQueue = 0
  · simp only [if_pos hend, reduceCtorEq] at hcall
  · simp only [if_neg hend] at hcall
    rw [not_or, hnext] at hend
    obtain ⟨temp, hfind, hcall⟩ := Option.bind_eq_some_iff.mp hcall
    rw [hnext] at hfind
    split_ifs at hcall with hnone
    rw [not_or] at hnone
    exact ⟨hend.1, hend.2, temp, _, hfind, rfl, hnone.1, hnone.2, (Option.some.inj hcall).symm⟩

theorem sysExit_eq {temp : ℕ} (hcur : s.currentTask ≠ 0)
    (hself : s.next s.currentTask ≠ s.currentTask) (hqueue : s.readyQueue ≠ 0)
    (hfind : before s.next s.currentTask s.fuel s.readyQueue = some temp)
    (hs₁ : s₁ = ((s.markZombie s.currentTask status).unlink temp s.currentTask).wakeParent
      s.currentTask) (hne : s₁.pickNextTask ≠ 0) (hdead : s₁.pickNextTask ≠ s.currentTask) :
    s.sysExit status = some (s₁.run s₁.pickNextTask) := by
  have hgo : ¬ ((s.markZombie s.currentTask status).next s.currentTask = s.currentTask ∨
      (s.markZombie s.currentTask status).readyQueue = 0) := by
    rw [next_markZombie]
    exact not_or.mpr ⟨hself, hqueue⟩
  have hfind' : before (s.markZombie s.currentTask status).next s.currentTask
      (s.markZombie s.currentTask status).fuel
      (s.markZombie s.currentTask status).readyQueue = some temp := by
    rw [next_markZombie]
    exact hfind
  rw [sysExit, if_neg hcur]
  simp only [if_neg hgo, hfind', Option.bind_some, ← hs₁, hne, hdead, or_self, if_false]

theorem sysWaitpid_cases {target : Word} {r : Waited × Kernel} (hcur : s.currentTask ≠ 0)
    (hcall : s.sysWaitpid target = some r) :
    (∃ t s₁, s.toReap target = some t ∧ s.unregister t = some s₁ ∧
      r = (.reaped (s.tasks.get t).pid (s.tasks.get t).exitCode, s₁.freeTask t)) ∨
    r = (.blocked, (s.setState s.currentTask .blocked).schedule) ∨ r = (.failed, s) := by
  rw [sysWaitpid, if_neg hcur] at hcall
  cases hreap : s.toReap target with
  | some t =>
    rw [hreap] at hcall
    obtain ⟨s₁, hun, rfl⟩ := Option.map_eq_some_iff.mp hcall
    exact .inl ⟨t, s₁, rfl, hun, rfl⟩
  | none =>
    rw [hreap] at hcall
    split_ifs at hcall
    · exact .inr (.inl (Option.some.inj hcall).symm)
    · exact .inr (.inr (Option.some.inj hcall).symm)

theorem toReap_some {target : Word} (h : s.toReap target = some t) :
    t ∈ s.all ∧ s.parent t = s.currentTask ∧ s.state t = .zombie ∧
      (target = -1 ∨ (s.tasks.get t).pid = target) := by
  have hsome := find?_some h
  simp only [waitsFor, Bool.and_eq_true, decide_eq_true_eq] at hsome
  exact ⟨mem_of_find?_eq_some h, hsome.1.1, hsome.2, hsome.1.2⟩

theorem unregister_frame (h : s.unregister t = some s') :
    s'.tasks.live = s.tasks.live ∧ s'.state = s.state ∧ s'.next = s.next ∧
      s'.parent = s.parent ∧ s'.readyQueue = s.readyQueue ∧ s'.currentTask = s.currentTask := by
  rw [unregister] at h
  split_ifs at h
  · cases h
    exact ⟨rfl, rfl, rfl, rfl, rfl, rfl⟩
  · obtain ⟨linker, -, rfl⟩ := Option.map_eq_some_iff.mp h
    exact ⟨rfl, by simp, by simp, by simp, rfl, rfl⟩

theorem pid_unregister (h : s.unregister t = some s') : s'.pid = s.pid := by
  rw [unregister] at h
  split_ifs at h
  · cases h
    rfl
  · obtain ⟨linker, -, rfl⟩ := Option.map_eq_some_iff.mp h
    simp

end Aevros.Proc.Kernel
