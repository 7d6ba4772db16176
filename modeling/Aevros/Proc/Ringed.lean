import Aevros.Proc.Queue

/-! # What calls keep of the ready queue

A walk along the links from the current task stays among tasks that have not been freed and are no
zombies, and ready tasks are in the queue, except for some that no walk comes to.
-/

namespace Aevros.Proc.Kernel

open Circle Function List Finset

variable {s s' : Kernel} {l : List ℕ} {K X : Set ℕ} {t u p : ℕ} {mem : Supply}

def Active (s : Kernel) (t : ℕ) : Prop := s.state t = .ready ∨ s.state t = .running

/-- The queue goes through `l` with its links in `K`, and ready tasks outside `X` are in `l`. -/
structure Ringed (X : Set ℕ) (l : List ℕ) (K : Set ℕ) (s : Kernel) : Prop where
  null : 0 ∉ s.tasks.live
  queue : s.Queue l
  reach : ∀ t ∈ l, t ∈ K
  live : ∀ t ∈ K, t ∈ s.tasks.live
  closed : ∀ t ∈ K, s.next t ∈ K
  calm : ∀ t ∈ K, s.state t ≠ .zombie
  current : s.currentTask ∈ s.tasks.live
  ahead : s.next s.currentTask ≠ 0 → s.next s.currentTask ∈ K
  active : ∀ t ∈ s.tasks.live, t ∉ X → s.Active t → t ∈ l
  apart : ∀ t ∈ X, t ∈ s.tasks.live ∧ t ∉ K ∧ t ≠ s.currentTask

def Alive (s : Kernel) : Prop := s.state s.currentTask ≠ .zombie

theorem alive_run : (s.run t).Alive := by
  change (s.setState t .running).state t ≠ _
  simp

theorem currentTask_wakeParent : (s.wakeParent t).currentTask = s.currentTask := by
  rw [Kernel.wakeParent]
  split_ifs <;> rfl

section

variable (h : Ringed X l K s)

include h

namespace Ringed

theorem queue_live : ∀ t ∈ l, t ∈ s.tasks.live :=
  fun t ht => h.live t (h.reach t ht)

theorem zero_notMem : 0 ∉ l := fun hzero =>
  h.null (h.queue_live 0 hzero)

theorem frame (hsub : s'.tasks.live ⊆ s.tasks.live) (hK : ∀ t ∈ K, t ∈ s'.tasks.live)
    (hcurrent : s.currentTask ∈ s'.tasks.live) (hX : ∀ t ∈ X, t ∈ s'.tasks.live)
    (hnext : ∀ t ∈ s.tasks.live, s'.next t = s.next t)
    (hstate : ∀ t ∈ s.tasks.live, s'.state t = s.state t) (hqueue : s'.readyQueue = s.readyQueue)
    (hcur : s'.currentTask = s.currentTask) :
    Ringed X l K s' where
  null hzero := h.null (hsub hzero)
  queue := h.queue.congr hqueue fun t ht => hnext t (h.queue_live t ht)
  reach := h.reach
  live := hK
  closed t ht := hnext t (h.live t ht) ▸ h.closed t ht
  calm t ht := hstate t (h.live t ht) ▸ h.calm t ht
  current := hcur ▸ hcurrent
  ahead := by
    rw [hcur, hnext _ h.current]
    exact h.ahead
  active t ht hne hactive := by
    rw [Active, hstate t (hsub ht)] at hactive
    exact h.active t (hsub ht) hne hactive
  apart t ht := ⟨hX t ht, (h.apart t ht).2.1, hcur ▸ (h.apart t ht).2.2⟩

theorem setState {y : TaskState} (hy : y ≠ .zombie)
    (hactive : y = .ready ∨ y = .running → t ∈ l) : Ringed X l K (s.setState t y) := { h with
  queue := h.queue.congr rfl fun u _ => by simp
  closed u hu := by simpa using h.closed u hu
  calm u hu := by
    by_cases hut : u = t
    · simpa [hut] using hy
    · simpa [hut] using h.calm u hu
  ahead := by simpa using h.ahead
  active u hu hne hact := by
    rw [Active] at hact
    by_cases hut : u = t
    · subst hut
      exact hactive (by simpa using hact)
    · exact h.active u hu hne (by simpa [hut, Active] using hact) }

theorem run (ht : t ∈ l) : Ringed X l {u | u ∈ l} (s.run t) := by
  have hset := h.setState (t := t) (y := .running) (by decide) fun _ => ht
  exact {
    null := h.null
    queue := hset.queue
    reach := fun _ hu => hu
    live := h.queue_live
    closed := fun u hu => hset.queue.next_mem hu
    calm := fun u hu => hset.calm u (h.reach u hu)
    current := h.queue_live t ht
    ahead := fun _ => hset.queue.next_mem ht
    active := hset.active
    apart := fun u hu =>
      have hul : u ∉ l := fun hul => (h.apart u hu).2.1 (h.reach u hul)
      ⟨(h.apart u hu).1, hul, fun heq => hul (heq ▸ ht)⟩ }

theorem picks : s.Picks K s.pickNextTask := by
  refine picks_pickNextTask h.closed (fun hne => ?_) h.ahead
  rcases h.queue with ⟨-, hzero⟩ | ⟨-, hc⟩
  · exact absurd hzero hne
  · exact h.reach _ hc.head_mem

theorem schedule (halive : s.Alive) :
    (∃ K', Ringed X l K' s.schedule) ∧ s.schedule.Alive := by
  rw [Kernel.schedule]
  split
  · exact ⟨⟨K, h⟩, halive⟩
  · rename_i hstay
    rw [not_or, not_or] at hstay
    obtain ⟨hK, hready⟩ := (h.picks.resolve_left hstay.1).resolve_left hstay.2.1
    have hmem : s.pickNextTask ∈ l :=
      h.active _ (h.live _ hK) (fun hX => (h.apart _ hX).2.1 hK) (.inl hready)
    refine ⟨⟨_, Ringed.run (K := K) ?_ hmem⟩, alive_run⟩
    split_ifs with hrun
    · exact h.setState (by decide) fun _ =>
        h.active _ h.current (fun hX => (h.apart _ hX).2.2 rfl) (.inr hrun)
    · exact h

theorem addReady (ht : t ∈ s.tasks.live) (hnot : t ∉ l) :
    ∃ s', s.taskAddReady t = some s' ∧ SameTasks s s' ∧
      s'.state = update s.state t .ready ∧ (s.Alive → s'.Alive) ∧
      Ringed (X \ {t}) (l ++ [t]) (insert t K) s' := by
  have ht0 : t ≠ 0 := fun hzero => h.null (hzero ▸ ht)
  obtain ⟨s', hcall, hqueue, hstate, hsame, hnext⟩ :=
    h.queue.taskAddReady h.queue_live ht0 hnot
  have hreach : ∀ u ∈ l ++ [t], u ∈ insert t K := by
    intro u hu
    rcases mem_append.mp hu with hu | hu
    · exact .inr (h.reach u hu)
    · exact .inl (List.mem_singleton.mp hu)
  have hstate' : ∀ u, s'.state u = if u = t then .ready else s.state u := by
    intro u
    rw [hstate, update_apply]
  refine ⟨s', hcall, hsame, hstate, fun halive => ?_, ?_⟩
  · rw [Alive, hsame.currentTask, hstate']
    split_ifs
    · decide
    · exact halive
  exact {
    null := hsame.live ▸ h.null
    queue := hqueue
    reach := hreach
    live := by
      rw [hsame.live]
      rintro u (rfl | hu)
      · exact ht
      · exact h.live u hu
    closed := by
      rintro u (rfl | hu)
      · exact hreach _ (hqueue.next_mem (by simp))
      · rcases hnext u with heq | hmem
        · exact heq ▸ .inr (h.closed u hu)
        · exact hreach _ hmem
    calm := by
      rintro u hu
      rw [hstate']
      split_ifs with hut
      · decide
      · exact h.calm u (hu.resolve_left hut)
    current := by
      rw [hsame.live, hsame.currentTask]
      exact h.current
    ahead := by
      rw [hsame.currentTask]
      intro hne
      rcases hnext s.currentTask with heq | hmem
      · rw [heq] at hne ⊢
        exact .inr (h.ahead hne)
      · exact hreach _ hmem
    active := by
      rw [hsame.live]
      intro u hu hX hactive
      rw [Active, hstate'] at hactive
      split_ifs at hactive with hut
      · simp [hut]
      · exact mem_append_left _ (h.active u hu (fun huX => hX ⟨huX, hut⟩) hactive)
    apart := by
      rintro u ⟨hu, hut⟩
      obtain ⟨hlive, hK, hcur⟩ := h.apart u hu
      rw [hsame.live, hsame.currentTask]
      exact ⟨hlive, fun hmem => hmem.elim hut hK, hcur⟩ }

theorem removeReady (ht : t ∈ s.tasks.live) :
    ∃ s', s.taskRemoveReady t = some s' ∧ SameTasks s s' ∧ (s.Alive → s'.Alive) ∧
      (l ≠ [] → s'.state t = .blocked) ∧ Ringed X (l.erase t) K s' := by
  have ht0 : t ≠ 0 := fun hzero => h.null (hzero ▸ ht)
  obtain ⟨s', hcall, hqueue, hstate, hsame, hnext⟩ :=
    h.queue.taskRemoveReady h.queue_live h.zero_notMem ht0
  have hstate' : ∀ u, s'.state u = s.state u ∧ (u = t → l = []) ∨ s'.state u = .blocked := by
    intro u
    rw [hstate]
    split_ifs with hnil
    · exact .inl ⟨rfl, fun _ => hnil⟩
    · by_cases hu : u = t
      · exact .inr (by simp [hu])
      · exact .inl ⟨by simp [hu], fun heq => absurd heq hu⟩
  refine ⟨s', hcall, hsame, fun halive => ?_, fun hcons => ?_, ?_⟩
  · rw [Alive, hsame.currentTask]
    rcases hstate' s.currentTask with ⟨heq, -⟩ | heq
    · exact heq ▸ halive
    · simp [heq]
  · simp [hstate, hcons]
  exact {
    null := hsame.live ▸ h.null
    queue := hqueue
    reach := fun u hu => h.reach u (mem_of_mem_erase hu)
    live := hsame.live ▸ h.live
    closed := by
      intro u hu
      rcases hnext u with heq | hmem
      · exact heq ▸ h.closed u hu
      · exact h.reach _ hmem
    calm := by
      intro u hu
      rcases hstate' u with ⟨heq, -⟩ | heq
      · exact heq ▸ h.calm u hu
      · simp [heq]
    current := by
      rw [hsame.live, hsame.currentTask]
      exact h.current
    ahead := by
      rw [hsame.currentTask]
      intro hne
      rcases hnext s.currentTask with heq | hmem
      · rw [heq] at hne ⊢
        exact h.ahead hne
      · exact h.reach _ hmem
    active := by
      rw [hsame.live]
      intro u hu hX hactive
      rcases hstate' u with ⟨heq, hnil⟩ | heq
      · rw [Active, heq] at hactive
        have hmem := h.active u hu hX hactive
        exact (mem_erase_of_ne fun hut => ne_nil_of_mem hmem (hnil hut)).mpr hmem
      · simp [Active, heq] at hactive
    apart := by
      rw [hsame.live, hsame.currentTask]
      exact h.apart }

theorem settle (ht : ¬ s.Active t) : Ringed (X \ {t}) l K s :=
  { h with
    active := fun u hu hX hactive => h.active u hu
      (fun huX => hX ⟨huX, fun heq : u = t => ht (heq ▸ hactive)⟩) hactive
    apart := fun u hu => h.apart u hu.1 }

theorem leave (status : Word) {temp : ℕ} (hself : s.next s.currentTask ≠ s.currentTask)
    (hqueue : s.readyQueue ≠ 0)
    (hfind : before s.next s.currentTask s.fuel s.readyQueue = some temp) :
    Ringed X (l.erase s.currentTask) {u | u ∈ l.erase s.currentTask}
      ((s.markZombie s.currentTask status).unlink temp s.currentTask) := by
  have hc := (h.queue.resolve_left fun hnil => hqueue hnil.2).2
  obtain ⟨htemp, hdead⟩ := before_spec (K := {u | u ∈ l}) (fun u hu => hc.next_mem hu)
    hc.head_mem hfind
  have hmem : s.currentTask ∈ l := hdead ▸ hc.next_mem htemp
  have hmark : (s.markZombie s.currentTask status).Queue l :=
    h.queue.congr rfl fun u _ => by simp
  have hqueue' := hmark.unlink h.zero_notMem htemp (t := s.currentTask) (by simpa using hdead)
    (by simpa using hself)
  have hne : temp ≠ s.currentTask := fun heq => hself (heq ▸ hdead)
  exact {
    null := h.null
    queue := hqueue'
    reach := fun _ hu => hu
    live := fun u hu => h.queue_live u (mem_of_mem_erase hu)
    closed := fun u hu => hqueue'.next_mem hu
    calm := by
      intro u hu
      have hud := (h.queue.nodup.mem_erase_iff.mp hu).1
      simpa [hud] using h.calm u (h.reach u (mem_of_mem_erase hu))
    current := h.current
    ahead := by
      intro _
      change ((s.markZombie s.currentTask status).unlink temp s.currentTask).next s.currentTask ∈ _
      rw [next_unlink, update_of_ne hne.symm, next_markZombie]
      exact (h.queue.nodup.mem_erase_iff).mpr ⟨hself, hc.next_mem hmem⟩
    active := by
      intro u hu hX hactive
      by_cases hud : u = s.currentTask
      · simp [Active, hud] at hactive
      · refine (h.queue.nodup.mem_erase_iff).mpr ⟨hud, h.active u hu hX ?_⟩
        simpa [Active, hud] using hactive
    apart := fun u hu =>
      ⟨(h.apart u hu).1, fun hmem => (h.apart u hu).2.1 (h.reach u (mem_of_mem_erase hmem)),
        (h.apart u hu).2.2⟩ }

theorem wakeParent
    (hparent : s.state (s.parent t) = .blocked → s.parent t ≠ 0 → s.parent t ∈ l) :
    Ringed X l K (s.wakeParent t) := by
  rw [Kernel.wakeParent]
  split_ifs with hwake
  · exact h.setState (by decide) fun _ => hparent hwake.2 hwake.1
  · exact h

theorem exit {status : Word}
    (hparent : s.parent s.currentTask ≠ 0 → s.state (s.parent s.currentTask) = .blocked → s.parent
      s.currentTask ∈ l) (hcall : s.sysExit status = some s') :
    Ringed X (l.erase s.currentTask) {u | u ∈ l.erase s.currentTask} s' ∧ s'.Alive := by
  have hcur : s.currentTask ≠ 0 := fun hzero => h.null (hzero ▸ h.current)
  obtain ⟨hself, hqueue, temp, s₁, hfind, hs₁, hne, hdead, rfl⟩ := sysExit_some hcur hcall
  have hleave := h.leave status hself hqueue hfind
  set s₂ := (s.markZombie s.currentTask status).unlink temp s.currentTask with hs₂
  have hsame : s₂.parent s.currentTask = s.parent s.currentTask := by
    rw [(sameTasks_unlink _ _ _).parent, parent_markZombie]
  have hwake : Ringed X (l.erase s.currentTask) {u | u ∈ l.erase s.currentTask} s₁ := by
    refine hs₁ ▸ hleave.wakeParent ?_
    rw [hsame]
    intro hblocked hpne
    have hpd : s.parent s.currentTask ≠ s.currentTask := by
      intro heq
      simp [hs₂, heq] at hblocked
    rw [state_unlink, state_markZombie, update_of_ne hpd] at hblocked
    exact h.queue.nodup.mem_erase_iff.mpr ⟨hpd, hparent hpne hblocked⟩
  have hcur₁ : s₁.currentTask = s.currentTask := by
    rw [hs₁, currentTask_wakeParent]
    rfl
  obtain ⟨hmem, -⟩ := (hwake.picks.resolve_left hne).resolve_left (hcur₁ ▸ hdead)
  exact ⟨hwake.run hmem, alive_run⟩

theorem scratch (hp : p ∉ s.tasks.live) {tcb : Tcb} {pid : Word} :
    Ringed X l K { s with tasks := (s.tasks.put p tcb).free p, nextPid := pid } := by
  have hlive : ((s.tasks.put p tcb).free p).live = s.tasks.live := by
    rw [Cells.live_free, Cells.live_put, erase_insert hp]
  have hget : ∀ t ∈ s.tasks.live, ((s.tasks.put p tcb).free p).get t = s.tasks.get t := by
    intro t ht
    exact Cells.get_put_of_ne fun heq : t = p => hp (heq ▸ ht)
  refine h.frame hlive.le (fun t ht => hlive.symm ▸ h.live t ht) (hlive.symm ▸ h.current)
    (fun t ht => hlive.symm ▸ (h.apart t ht).1) (fun t ht => ?_) (fun t ht => ?_) rfl rfl
  · exact congrArg Tcb.next (hget t ht)
  · exact congrArg Tcb.state (hget t ht)

theorem enter (hp : p ∉ s.tasks.live) (hp0 : p ≠ 0) (name : List Byte) :
    Ringed (insert p X) l K (s.enter p name) := by
  have hget : ∀ t ∈ s.tasks.live, (s.enter p name).tasks.get t = s.tasks.get t := by
    intro t ht
    rw [get_enter hp0, if_neg fun heq : t = p => hp (heq ▸ ht)]
  have hnext : ∀ t ∈ s.tasks.live, (s.enter p name).next t = s.next t := fun t ht =>
    congrArg Tcb.next (hget t ht)
  have hstate : ∀ t ∈ s.tasks.live, (s.enter p name).state t = s.state t := fun t ht =>
    congrArg Tcb.state (hget t ht)
  exact {
    null := by
      rw [live_enter, mem_insert, not_or]
      exact ⟨hp0.symm, h.null⟩
    queue := h.queue.congr readyQueue_enter fun t ht => hnext t (h.queue_live t ht)
    reach := h.reach
    live := fun t ht => live_enter ▸ mem_insert_of_mem (h.live t ht)
    closed := fun t ht => hnext t (h.live t ht) ▸ h.closed t ht
    calm := fun t ht => hstate t (h.live t ht) ▸ h.calm t ht
    current := by
      rw [currentTask_enter, live_enter]
      exact mem_insert_of_mem h.current
    ahead := by
      rw [currentTask_enter, hnext _ h.current]
      exact h.ahead
    active := by
      intro t ht hX hactive
      rw [Set.mem_insert_iff, not_or] at hX
      rw [live_enter] at ht
      have hlive := (mem_insert.mp ht).resolve_left hX.1
      rw [Active, hstate t hlive] at hactive
      exact h.active t hlive hX.2 hactive
    apart := by
      rw [live_enter, currentTask_enter]
      rintro t (rfl | ht)
      · exact ⟨mem_insert_self t _, fun hK => hp (h.live t hK), fun heq => hp (heq ▸ h.current)⟩
      · exact ⟨mem_insert_of_mem (h.apart t ht).1, (h.apart t ht).2⟩ }

theorem create (halive : s.Alive) (hp : p ∉ s.tasks.live) (hp0 : p ≠ 0) {name : List Byte}
    (hcall : (s.enter p name).taskAddReady p = some s') :
    Ringed X (l ++ [p]) (insert p K) s' ∧ s'.Alive ∧ SameTasks (s.enter p name) s' ∧
      s'.state = (s.enter p name).state := by
  have henter := h.enter hp hp0 name
  have hmem : p ∈ (s.enter p name).tasks.live := by
    rw [live_enter]
    exact mem_insert_self p _
  obtain ⟨s₁, hadd, hsame, hstate, halive₁, hring⟩ :=
    henter.addReady hmem fun hpl => hp (h.queue_live p hpl)
  cases hadd.symm.trans hcall
  rw [Set.insert_sdiff_self_of_notMem fun hX => hp (h.apart p hX).1] at hring
  have hready : (s.enter p name).state p = .ready := by
    rw [Kernel.state, get_enter hp0, if_pos rfl]
  refine ⟨hring, halive₁ ?_, hsame, by rw [hstate, ← hready, update_eq_self]⟩
  rw [Alive, currentTask_enter, Kernel.state, get_enter hp0,
    if_neg fun heq : s.currentTask = p => hp (heq ▸ h.current)]
  exact halive

end Ringed

end

theorem alive_boot (worker : Bool) : (boot worker).Alive := by
  rw [Alive]
  cases worker <;> decide

theorem ringed_boot (worker : Bool) : Ringed {t | worker = true ∧ t = 1} [2] {2} (boot worker) where
  null := by cases worker <;> decide
  queue := .inr ⟨by cases worker <;> decide, nodup_singleton 2, by simp,
    by cases worker <;> exact ⟨rfl, rfl⟩⟩
  reach t ht := by simpa using ht
  live := by
    rintro t rfl
    cases worker <;> decide
  closed := by
    rintro t rfl
    cases worker <;> rfl
  calm := by
    rintro t rfl
    cases worker <;> decide
  current := by cases worker <;> decide
  ahead _ := by cases worker <;> rfl
  active t ht hX _ := by
    cases worker
    · simpa [boot] using ht
    · have hcases : t = 1 ∨ t = 2 := by simpa [boot] using ht
      exact List.mem_singleton.mpr (hcases.resolve_left fun heq => hX ⟨rfl, heq⟩)
  apart := by
    rintro t ⟨rfl, rfl⟩
    exact ⟨by decide, by simp, by decide⟩

end Aevros.Proc.Kernel
