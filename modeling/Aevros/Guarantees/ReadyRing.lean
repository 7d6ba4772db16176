import Aevros.Proc.Ringed

/-! # The ready queue is one circle

The links from `ready_queue` go around through tasks that have not been freed, each once. This is
kept by every call that puts only tasks into the queue that are not there, and goes over only to
tasks that are.
-/

namespace Aevros.Proc.Kernel

open Circle List Partial Option

variable {s s' : Kernel} {l : List ℕ} {K : Set ℕ} {t : ℕ} {mem : Supply}

def RingOk (s : Kernel) : Prop :=
  ∃ l, s.Queue l ∧ (∀ t ∈ s.tasks.live, s.Active t → t ∈ l) ∧ ∀ t ∈ l, t ∈ s.tasks.live

def Orderly (s : Kernel) (e : Event) : Prop :=
  match e.call with
  | .exit _ => s.parent s.currentTask = 0 ∨ s.parent s.currentTask ∈ s.tasks.live ∧
    (s.state (s.parent s.currentTask) = .blocked → s.OnQueue (s.parent s.currentTask))
  | .addReady t => t = 0 ∨ t ∈ s.tasks.live ∧ ¬ s.OnQueue t
  | .removeReady t => t = 0 ∨ t ∈ s.tasks.live
  | .save name => s.findTaskByName name = s.currentTask → s.workerTask = 0 ∨ s.OnQueue s.workerTask
  | .work => s.workSnapshot = true →
    s.waiterTask = 0 ∨ s.waiterTask ∈ s.tasks.live ∧ ¬ s.OnQueue s.waiterTask
  | _ => True

def Kept (s : Kernel) : Prop := (∃ l K, Ringed ∅ l K s) ∧ s.Alive

section

variable (h : s.Kept)

include h

namespace Kept

theorem ringOk : s.RingOk := by
  obtain ⟨⟨l, K, h⟩, -⟩ := h
  exact ⟨l, h.queue, fun t ht => h.active t ht (Set.notMem_empty t), h.queue_live⟩

theorem creates (hcall : Creates s s') : s'.Kept := by
  obtain ⟨⟨l, K, h⟩, halive⟩ := h
  cases hcall with
  | nothing => exact ⟨⟨l, K, h⟩, halive⟩
  | @gaveBack p tcb pid hp =>
    refine ⟨⟨l, K, h.scratch hp⟩, ?_⟩
    change ((s.tasks.put p tcb).get s.currentTask).state ≠ _
    rw [Cells.get_put_of_ne fun heq : s.currentTask = p => hp (heq ▸ h.current)]
    exact halive
  | entered hp hp0 hcall =>
    obtain ⟨h', halive', -⟩ := h.create halive hp hp0 hcall
    exact ⟨⟨_, _, h'⟩, halive'⟩

theorem congr (htasks : s'.tasks = s.tasks) (hqueue : s'.readyQueue = s.readyQueue)
    (hcur : s'.currentTask = s.currentTask) : s'.Kept := by
  obtain ⟨⟨l, K, h⟩, halive⟩ := h
  have hstate : s'.state = s.state := by
    funext t
    rw [Kernel.state, htasks, Kernel.state]
  refine ⟨⟨l, K, h.frame (by rw [htasks]) (htasks ▸ h.live) (htasks ▸ h.current)
    (fun _ hX => hX.elim) (fun t _ => ?_) (fun t _ => congrFun hstate t) hqueue hcur⟩, ?_⟩
  · rw [Kernel.next, htasks, Kernel.next]
  · rw [Alive, hcur, hstate]
    exact halive

theorem addReady (ht : t = 0 ∨ t ∈ s.tasks.live ∧ ¬ s.OnQueue t)
    (hcall : s.taskAddReady t = some s') : s'.Kept ∧ SameTasks s s' := by
  by_cases hzero : t = 0
  · rw [taskAddReady, if_pos hzero] at hcall
    cases hcall
    exact ⟨h, .refl s⟩
  · obtain ⟨⟨l, K, h⟩, halive⟩ := h
    obtain ⟨hlive, hnot⟩ := ht.resolve_left hzero
    obtain ⟨s₁, hadd, hsame, -, halive₁, hring⟩ :=
      h.addReady hlive fun hmem => hnot (h.queue.onQueue_iff.mpr hmem)
    cases hadd.symm.trans hcall
    rw [Set.empty_sdiff] at hring
    exact ⟨⟨⟨_, _, hring⟩, halive₁ halive⟩, hsame⟩

theorem removeReady (ht : t = 0 ∨ t ∈ s.tasks.live) (hcall : s.taskRemoveReady t = some s') :
    s'.Kept := by
  by_cases hzero : t = 0
  · rw [taskRemoveReady, if_pos (.inl hzero)] at hcall
    cases hcall
    exact h
  · obtain ⟨⟨l, K, h⟩, halive⟩ := h
    obtain ⟨s₁, hremove, -, halive₁, -, hring⟩ := h.removeReady (ht.resolve_left hzero)
    cases hremove.symm.trans hcall
    exact ⟨⟨_, _, hring⟩, halive₁ halive⟩

theorem schedule : s.schedule.Kept := by
  obtain ⟨⟨l, K, h⟩, halive⟩ := h
  obtain ⟨⟨K', h'⟩, halive'⟩ := h.schedule halive
  exact ⟨⟨l, K', h'⟩, halive'⟩

theorem block (t : ℕ) : (s.setState t .blocked).Kept := by
  obtain ⟨⟨l, K, h⟩, halive⟩ := h
  refine ⟨⟨l, K, h.setState (by decide) (by simp)⟩, ?_⟩
  rw [Alive]
  by_cases ht : s.currentTask = t
  · simp [ht]
  · simpa [ht, Alive] using halive

theorem waitpid {target : Word} {r : Waited × Kernel} (hcall : s.sysWaitpid target = some r) :
    r.2.Kept := by
  obtain ⟨⟨l, K, hring⟩, halive⟩ := id h
  have hcur : s.currentTask ≠ 0 := fun hzero => hring.null (hzero ▸ hring.current)
  rcases sysWaitpid_cases hcur hcall with ⟨t, s₁, hreap, hun, rfl⟩ | rfl | rfl
  · obtain ⟨-, -, hzombie, -⟩ := toReap_some hreap
    obtain ⟨hlive, hstate, hnext, -, hqueue, hcur₁⟩ := unregister_frame hun
    have htc : s.currentTask ≠ t := fun heq => halive (heq ▸ hzombie)
    have herase : (s₁.freeTask t).tasks.live = s.tasks.live.erase t := by
      rw [← hlive]
      rfl
    refine ⟨⟨l, K, hring.frame ?_ (fun u hu => ?_) ?_ (fun _ hX => hX.elim) ?_ ?_ hqueue hcur₁⟩, ?_⟩
    · rw [herase]
      exact Finset.erase_subset t _
    · rw [herase, Finset.mem_erase]
      exact ⟨fun heq => hring.calm u hu (heq ▸ hzombie), hring.live u hu⟩
    · rw [herase, Finset.mem_erase]
      exact ⟨htc, hring.current⟩
    · exact fun u _ => congrFun hnext u
    · exact fun u _ => congrFun hstate u
    · change s₁.state s₁.currentTask ≠ _
      rw [hcur₁, hstate]
      exact halive
  · exact (h.block _).schedule
  · exact h

theorem hold (t : ℕ) : (s.doActualSaveToFile t).Kept := by
  rw [doActualSaveToFile]
  split_ifs with hready
  · obtain ⟨⟨l, K, hring⟩, halive⟩ := id h
    have hstate : ((s.setState t .blocked).setState t .ready).state = s.state := by
      simp [hready]
    refine ⟨⟨l, K, hring.frame subset_rfl hring.live hring.current (fun _ hX => hX.elim)
      (fun u _ => ?_) (fun u _ => ?_) rfl rfl⟩, ?_⟩
    · simp
    · rw [hstate]
    · rw [Alive, hstate]
      exact halive
  · exact h

theorem switch (ht : t = 0 ∨ s.OnQueue t) : (s.switchToTaskState t .blocked).Kept := by
  rw [switchToTaskState]
  split_ifs with hstay
  · exact h
  · rw [not_or, not_or] at hstay
    obtain ⟨⟨l, K, hring⟩, -⟩ := h.block s.currentTask
    obtain ⟨l', hqueue, hmem⟩ := ht.resolve_left hstay.1
    have hqueue' : (s.setState s.currentTask .blocked).Queue l' :=
      hqueue.congr rfl fun u _ => by simp
    exact ⟨⟨l, _, hring.run (hring.queue.unique hqueue' ▸ hmem)⟩, alive_run⟩

theorem save {name : List Byte} (horderly : s.Orderly ⟨.save name, mem⟩) :
    (s.aevrospointSave name mem).Kept := by
  rw [aevrospointSave]
  split_ifs with hnone hself
  · exact h
  · exact h
  · rw [captureSelfSnapshot]
    split_ifs
    · exact h
    · have hnoted : ({ s with workSnapshot := true, waiterTask := s.currentTask } : Kernel).Kept :=
        h.congr rfl rfl rfl
      exact hnoted.switch (horderly hself)
  · exact h.hold _

theorem work (horderly : s.Orderly ⟨.work, mem⟩) (hcall : s.workerThread = some s') :
    s'.Kept := by
  rw [workerThread] at hcall
  split_ifs at hcall with hnot hsnap
  · obtain ⟨s₁, hadd, hcall⟩ := bind_eq_some_iff.mp hcall
    obtain ⟨s₂, hremove, rfl⟩ := map_eq_some_iff.mp hcall
    rw [not_or, not_not] at hnot
    have hidle : ({ s with workSnapshot := false, waiterTask := 0 } : Kernel).Kept :=
      h.congr rfl rfl rfl
    obtain ⟨h₁, hsame⟩ := hidle.addReady (horderly hsnap) hadd
    refine (h₁.removeReady (.inr ?_) hremove).schedule
    obtain ⟨⟨l, K, hring⟩, -⟩ := h₁
    have hcur := hring.current
    rw [hsame.currentTask] at hcur
    rw [hsame.workerTask]
    exact hnot.2 ▸ hcur
  · obtain ⟨s₂, hremove, rfl⟩ := map_eq_some_iff.mp hcall
    rw [not_or, not_not] at hnot
    obtain ⟨⟨l, K, hring⟩, -⟩ := id h
    exact (h.removeReady (.inr (hnot.2 ▸ hring.current)) hremove).schedule

theorem step {e : Event} (horderly : s.Orderly e) (hstep : s.step e = some s') : s'.Kept := by
  obtain ⟨call, mem⟩ := e
  obtain ⟨⟨l, K, hring⟩, halive⟩ := id h
  cases call with
  | createKernel => exact h.creates (creates_taskCreateKernel hstep)
  | createUser => exact h.creates (creates_taskCreateUser hstep)
  | fork => exact h.creates (creates_doFork hstep)
  | exec path loads => exact h.creates (creates_sysExec hstep)
  | exit status =>
    obtain ⟨h', halive'⟩ := hring.exit (fun hne hblocked =>
      hring.queue.onQueue_iff.mp ((Or.resolve_left horderly hne).2 hblocked)) hstep
    exact ⟨⟨_, _, h'⟩, halive'⟩
  | waitpid target =>
    obtain ⟨r, hcall, rfl⟩ := map_eq_some_iff.mp hstep
    exact h.waitpid hcall
  | addReady t => exact (h.addReady horderly hstep).1
  | removeReady t => exact h.removeReady horderly hstep
  | save name =>
    cases hstep
    exact h.save horderly
  | work => exact h.work horderly hstep
  | restore name snap => exact h.creates (creates_aevrospointRestore hstep)
  | schedule =>
    cases hstep
    exact h.schedule

end Kept

end

/-- The worker is taken out of the way, or put into the queue. -/
def Settles (e : Event) : Prop :=
  e.call = .removeReady (boot true).workerTask ∨ e.call = .addReady (boot true).workerTask

theorem kept_of_settles {e : Event} (he : Settles e) (hstep : (boot true).step e = some s) :
    s.Kept := by
  have hboot := ringed_boot true
  have hlive : 1 ∈ (boot true).tasks.live := by decide
  have hnone : ({t | true = true ∧ t = 1} : Set ℕ) \ {1} = ∅ := by simp
  rcases he with hcall | hcall
  · obtain ⟨s', hremove, -, halive, hblocked, hring⟩ := hboot.removeReady hlive
    rw [Kernel.step, hcall] at hstep
    cases hremove.symm.trans hstep
    have hsettled := hring.settle (t := 1) (by simp [Active, hblocked])
    rw [hnone] at hsettled
    exact ⟨⟨_, _, hsettled⟩, halive (alive_boot true)⟩
  · obtain ⟨s', hadd, -, -, halive, hring⟩ := hboot.addReady hlive (by simp)
    rw [Kernel.step, hcall] at hstep
    cases hadd.symm.trans hstep
    rw [hnone] at hring
    exact ⟨⟨_, _, hring⟩, halive (alive_boot true)⟩

/-- Once the worker is settled, the queue is one circle of the tasks that can run. -/
theorem ring_kept {worker : Bool} {es : List Event}
    (hworker : worker = true → ∃ e rest, es = e :: rest ∧ Settles e)
    (hrun : Takes step Orderly (boot worker) es s) : s.RingOk := by
  suffices hkept : s.Kept from hkept.ringOk
  have hrule : ∀ s e s', Kept s → Orderly s e → step s e = some s' → Kept s' :=
    fun _ _ _ h horderly hstep => h.step horderly hstep
  cases worker with
  | false =>
    have hboot := ringed_boot false
    rw [show {t | false = true ∧ t = 1} = ∅ by simp] at hboot
    exact hrun.invariant hrule ⟨⟨_, _, hboot⟩, alive_boot false⟩
  | true =>
    obtain ⟨e, rest, rfl, he⟩ := hworker rfl
    cases hrun with
    | cons _ hstep hrest => exact hrest.invariant hrule (kept_of_settles he hstep)

section Turns

variable {m a b : List ℕ}

structure Turning (s : Kernel) (m : List ℕ) : Prop where
  circle : IsCircle s.next s.currentTask (s.currentTask :: m)
  queue : s.readyQueue ∈ s.currentTask :: m
  null : 0 ∉ s.currentTask :: m
  short : (s.currentTask :: m).length < 65535

section

variable (h : s.Turning m)

include h

theorem Turning.current_ne : s.currentTask ≠ 0 := fun hzero => h.null (by simp [hzero])

theorem Turning.pickNextTask_eq : s.pickNextTask =
    (m.find? fun u => s.state u = .ready ∧ u ≠ s.currentTask).getD
      (if s.state s.currentTask = .ready then s.currentTask else 0) := by
  have hqueue : s.readyQueue ≠ 0 := fun hzero => h.null (hzero ▸ h.queue)
  have hnext : s.next s.currentTask ≠ 0 := fun hzero =>
    h.null (hzero ▸ h.circle.next_mem mem_cons_self)
  have hnd : (m ++ [s.currentTask]).Nodup := perm_append_comm.nodup_iff.mp h.circle.nodup
  have hstart : s.next s.currentTask ∉ (m ++ [s.currentTask]).tail := by
    cases m with
    | nil => simp
    | cons x m =>
      rw [h.circle.leads.2.1]
      exact (nodup_cons.mp hnd).1
  rw [pickNextTask, if_neg hqueue]
  simp only [if_pos (And.intro h.current_ne hnext)]
  rw [pickFrom_eq (leads_concat.mpr ⟨h.circle.leads.2, rfl⟩) (by simp) hstart
    (fun hzero => h.null (perm_append_comm.mem_iff.mp hzero)) (by simpa using h.short.le) rfl]
  simp [pickRest, h.current_ne, find?_append]

theorem Turning.schedule (hm : m = a ++ t :: b) (ha : ∀ u ∈ a, s.state u ≠ .ready)
    (ht : s.state t = .ready) : s.pickNextTask = t ∧ s.schedule.Turning (b ++ s.currentTask :: a) ∧
      ∀ u ≠ t, s.state u = .ready → s.schedule.state u = .ready := by
  subst hm
  have hnd := h.circle.nodup
  have hnull := h.null
  have hne : t ≠ s.currentTask := by
    rintro rfl
    simp at hnd
  have hpick : s.pickNextTask = t := by
    rw [h.pickNextTask_eq, find?_append, find?_eq_none.mpr fun u hu => by simp [ha u hu]]
    simp [ht, hne]
  have hperm : (t :: b ++ s.currentTask :: a).Perm (s.currentTask :: a ++ t :: b) :=
    perm_append_comm
  have hcircle : IsCircle s.next s.currentTask (s.currentTask :: a ++ t :: b) := h.circle
  have hsched : s.schedule = (if s.state s.currentTask = .running then
      s.setState s.currentTask .ready else s).run t := by
    rw [Kernel.schedule, hpick]
    refine if_neg ?_
    rintro (rfl | heq | hzero)
    · simp at hnull
    · exact hne heq
    · exact h.current_ne hzero
  have hcurrent : s.schedule.currentTask = t := by rw [hsched]; rfl
  have hframe : s.schedule.next = s.next ∧ s.schedule.readyQueue = s.readyQueue := by
    rw [hsched]
    split_ifs <;> exact ⟨next_setState.trans (by simp), rfl⟩
  refine ⟨hpick, ?_, fun u hu hready => ?_⟩
  · constructor <;> rw [hcurrent]
    · rw [hframe.1]
      exact hcircle.turn
    · rw [hframe.2]
      exact hperm.mem_iff.mpr h.queue
    · exact fun hmem => hnull (hperm.mem_iff.mp hmem)
    · exact hperm.length_eq ▸ h.short
  · rw [hsched]
    change (Kernel.setState _ t .running).state u = _
    rw [state_setState, Function.update_of_ne hu]
    split_ifs
    · simp [Function.update_apply, hready]
    · exact hready

end

theorem Turning.chosen (h : s.Turning (a ++ t :: b)) (ht : s.state t = .ready) :
    ∃ n ≤ a.length, (Kernel.schedule^[n] s).pickNextTask = t := by
  induction hn : a.length using Nat.strong_induction_on generalizing s a b with
  | _ n ih =>
    cases hfind : a.find? fun u => s.state u = .ready with
    | none => exact ⟨0, Nat.zero_le _, (h.schedule rfl (by simpa using hfind) ht).1⟩
    | some r =>
      obtain ⟨hr, a₁, a₂, rfl, ha₁⟩ := find?_eq_some_iff_append.mp hfind
      have hnd := h.circle.nodup
      have hne : t ≠ r := by
        rintro rfl
        simp [nodup_append] at hnd
      rw [append_assoc, cons_append] at h
      obtain ⟨-, hnext, hready⟩ := h.schedule rfl (by simpa using ha₁) (by simpa using hr)
      rw [append_assoc] at hnext
      obtain ⟨k, hk, hpick⟩ := ih a₂.length (by simp at hn; omega) hnext (hready t hne ht) rfl
      exact ⟨k + 1, by simp at hn; omega, hpick⟩

/-- The next ready task is picked, and everyone who is ready within one round. -/
theorem Turning.round_robin (h : s.Turning m) : s.pickNextTask =
    (m.find? fun u => s.state u = .ready ∧ u ≠ s.currentTask).getD
        (if s.state s.currentTask = .ready then s.currentTask else 0) ∧
      ∀ t ∈ s.currentTask :: m, s.state t = .ready →
        ∃ n < m.length + 1, (Kernel.schedule^[n] s).pickNextTask = t := by
  refine ⟨h.pickNextTask_eq, fun t ht hready => ?_⟩
  rcases mem_cons.mp ht with rfl | hmem
  · cases hfind : m.find? fun u => s.state u = .ready ∧ u ≠ s.currentTask with
    | none =>
      refine ⟨0, Nat.zero_lt_succ _, ?_⟩
      change s.pickNextTask = _
      rw [h.pickNextTask_eq, hfind, getD_none, if_pos hready]
    | some r =>
      obtain ⟨hr, a, b, rfl, ha⟩ := find?_eq_some_iff_append.mp hfind
      simp only [decide_eq_true_eq] at hr
      have hnone : ∀ u ∈ a, s.state u ≠ .ready := by
        intro u hu hu'
        have hnd := h.circle.nodup
        obtain rfl : u = s.currentTask := by simpa [hu'] using ha u hu
        simp [hu] at hnd
      obtain ⟨-, hnext, hkeeps⟩ := h.schedule rfl hnone hr.1
      obtain ⟨k, hk, hpick⟩ := hnext.chosen (hkeeps _ hr.2.symm hready)
      exact ⟨k + 1, by simp; omega, hpick⟩
  · obtain ⟨a, b, rfl⟩ := append_of_mem hmem
    obtain ⟨n, hn, hpick⟩ := h.chosen hready
    exact ⟨n, by simp; omega, hpick⟩

end Turns

def roomAt (p : ℕ) : Supply := ⟨p, true, true, true⟩

def after (s : Kernel) (e : Event) : Kernel := (s.step e).getD s

def briefTask : List Event :=
  [⟨.removeReady 1, roomAt 3⟩, ⟨.createKernel, roomAt 3⟩, ⟨.schedule, roomAt 3⟩,
    ⟨.exit 0, roomAt 3⟩]

theorem new_task_chosen : ∃ n < 2,
    (Kernel.schedule^[n] ((briefTask.take 2).foldl after (boot true))).pickNextTask = 3 := by
  have hturning : ((briefTask.take 2).foldl after (boot true)).Turning [3] :=
    ⟨⟨by decide +kernel, by simp, by decide +kernel, by decide +kernel,
      leads_nil.mpr (by decide +kernel)⟩, by decide +kernel, by decide +kernel, by decide⟩
  exact hturning.round_robin.2 3 (by decide +kernel) (by decide +kernel)

theorem ring_after_exit : (briefTask.foldl after (boot true)).RingOk := by
  have hrun : Takes step Orderly (boot true) briefTask (briefTask.foldl after (boot true)) := by
    refine .cons ?_ rfl (.cons trivial rfl (.cons trivial rfl (.cons ?_ rfl .nil)))
    · exact Or.inr (by decide)
    · exact Or.inr ⟨by decide +kernel, fun hblocked => absurd hblocked (by decide +kernel)⟩
  exact ring_kept (fun _ => ⟨_, _, rfl, .inl rfl⟩) hrun

def selfSave : List Event :=
  [⟨.removeReady 1, roomAt 3⟩, ⟨.createKernel, roomAt 3⟩, ⟨.save shellName, roomAt 3⟩,
    ⟨.work, roomAt 3⟩]

theorem tasks_off_ring : ¬ (boot true).RingOk ∧
    ∃ s, Takes step (fun _ _ => True) (boot true) selfSave s ∧ 3 ∈ s.tasks.live ∧
      s.state 3 = .ready ∧ s.Queue [2] ∧ ¬ s.RingOk := by
  have hstray : ∀ {s : Kernel} {t : ℕ}, s.Queue [2] → t ∈ s.tasks.live → s.state t = .ready →
      t ≠ 2 → ¬ s.RingOk := by
    rintro s t hqueue hlive hready hne ⟨l, hl, hactive, -⟩
    obtain rfl := hqueue.unique hl
    exact hne (mem_singleton.mp (hactive t hlive (.inl hready)))
  have hlast : (selfSave.foldl after (boot true)).Queue [2] :=
    .inr ⟨by decide +kernel, nodup_singleton 2, by simp, by decide +kernel,
      leads_nil.mpr (by decide +kernel)⟩
  refine ⟨hstray (t := 1) (ringed_boot true).queue (by decide) (by decide) (by decide),
    selfSave.foldl after (boot true), ?_, by decide +kernel, by decide +kernel, hlast,
    hstray (t := 3) hlast (by decide +kernel) (by decide +kernel) (by decide)⟩
  exact .cons trivial rfl (.cons trivial rfl (.cons trivial rfl (.cons trivial rfl .nil)))

end Aevros.Proc.Kernel
