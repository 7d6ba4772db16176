import Aevros.Proc.Ringed

/-! # The list of all tasks

Every task is on the list that begins at `all_tasks` from when it is created until its parent
frees it. Neither the queue nor the states of tasks have to do with that list.
-/

namespace Aevros.Proc.Kernel

open Circle Chain List

variable {s s₁ s' : Kernel} {L : List ℕ} {t p : ℕ}

/-- The list of all tasks is `L`, and those are the tasks that have not been freed. -/
structure Listed (L : List ℕ) (s : Kernel) : Prop where
  chain : Chain.IsChain 0 s.allNext s.allTasks L
  mem_iff : ∀ t, t ∈ L ↔ t ∈ s.tasks.live

theorem leads_of_isChain {next : ℕ → ℕ} {h : ℕ} {l : List ℕ} (hc : Chain.IsChain 0 next h l) :
    Leads next h l 0 := by
  induction l generalizing h with
  | nil => exact hc
  | cons a l ih => exact ⟨hc.1, ih hc.2.2⟩

section

variable (h : Listed L s)

include h

theorem Listed.length_lt : L.length < s.fuel :=
  Nat.lt_succ_of_le (length_le_card h.chain.nodup fun t => (h.mem_iff t).mp)

theorem Listed.all_eq : s.all = L := h.chain.nodes_eq h.length_lt

/-- What only registering and freeing change. -/
structure SameFamily (s s' : Kernel) : Prop where
  live : s'.tasks.live = s.tasks.live
  pid : ∀ t ∈ s.tasks.live, s'.pid t = s.pid t
  parent : ∀ t ∈ s.tasks.live, s'.parent t = s.parent t
  allNext : ∀ t ∈ s.tasks.live, s'.allNext t = s.allNext t
  allTasks : s'.allTasks = s.allTasks
  zombie : ∀ t ∈ s.tasks.live, (s'.state t = .zombie ↔ s.state t = .zombie)

theorem Listed.congr (hsame : SameFamily s s') : Listed L s' where
  chain := by
    rw [hsame.allTasks]
    exact h.chain.congr fun t ht => hsame.allNext t ((h.mem_iff t).mp ht)
  mem_iff := by
    rw [hsame.live]
    exact h.mem_iff

theorem Listed.enter (hp : p ∉ s.tasks.live) (hp0 : p ≠ 0) {name : List Byte} :
    Listed (p :: L) (s.enter p name) where
  chain := by
    have hpL : p ∉ L := fun hmem => hp ((h.mem_iff p).mp hmem)
    have hnext : (s.enter p name).allNext = Function.update s.allNext p s.allTasks := by
      funext t
      rw [Kernel.allNext, get_enter hp0]
      by_cases ht : t = p
      · simp [ht]
      · simp [ht, Kernel.allNext]
    have hfirst : (s.enter p name).allTasks = p := by
      rw [Kernel.enter, taskRegisterAll, if_neg hp0]
    rw [hnext, hfirst]
    exact h.chain.push hp0 hpL
  mem_iff t := by rw [mem_cons, live_enter, Finset.mem_insert, h.mem_iff]

theorem Listed.reap (hs : s.unregister t = some s₁) (ht : t ∈ L) :
    ∃ L', Listed L' (s₁.freeTask t) := by
  have hmem : ∀ {l₁ l₂ : List ℕ}, L = l₁ ++ t :: l₂ → s₁.tasks.live = s.tasks.live →
      ∀ u, u ∈ l₁ ++ l₂ ↔ u ∈ (s₁.freeTask t).tasks.live := by
    rintro l₁ l₂ rfl hlive u
    change _ ↔ u ∈ s₁.tasks.live.erase t
    have hnd := h.chain.nodup
    rw [nodup_middle, nodup_cons] at hnd
    rw [hlive, Finset.mem_erase, ← h.mem_iff]
    constructor
    · intro hu
      exact ⟨fun heq => hnd.1 (heq ▸ hu), perm_middle.mem_iff.mpr (.tail t hu)⟩
    · rintro ⟨hne, hu⟩
      exact (mem_cons.mp (perm_middle.mem_iff.mp hu)).resolve_left hne
  rw [unregister] at hs
  split_ifs at hs with hfirst
  · cases hs
    cases L with
    | nil => simp at ht
    | cons a L =>
      obtain rfl : a = t := h.chain.1.symm.trans hfirst
      exact ⟨L, h.chain.2.2, hmem (nil_append _).symm rfl⟩
  · obtain ⟨l₁, l₂, rfl⟩ := append_of_mem ht
    obtain ⟨l, q, rfl⟩ : ∃ l q, l₁ = l ++ [q] := by
      cases l₁ with
      | nil => exact absurd h.chain.1 hfirst
      | cons a l₁ => exact ⟨_, _, (dropLast_concat_getLast (cons_ne_nil a l₁)).symm⟩
    -- the walk along the list stops at the task before
    have hfind : before s.allNext t s.fuel s.allTasks = some q := by
      obtain ⟨b, hb, rfl, -⟩ := leads_append.mp (leads_of_isChain h.chain)
      have hlen := h.length_lt
      refine hb.before_eq (fun hmem => ?_) (by simp at hlen; omega)
      exact (nodup_append.mp h.chain.nodup).2.2 b (mem_of_mem_tail hmem) b (by simp) rfl
    rw [hfind] at hs
    cases hs
    refine ⟨l ++ [q] ++ l₂, ?_, hmem rfl rfl⟩
    have hchain := h.chain
    rw [append_assoc] at hchain
    rw [append_assoc]
    change Chain.IsChain 0 (s.setAllNext q (s.allNext t)).allNext s.allTasks (l ++ q :: l₂)
    rw [allNext_setAllNext]
    exact hchain.unlink

end

theorem SameFamily.refl (s : Kernel) : SameFamily s s :=
  ⟨rfl, fun _ _ => rfl, fun _ _ => rfl, fun _ _ => rfl, rfl, fun _ _ => Iff.rfl⟩

theorem SameFamily.trans (h : SameFamily s s₁) (h' : SameFamily s₁ s') : SameFamily s s' where
  live := h'.live.trans h.live
  pid t ht := (h'.pid t (h.live.symm ▸ ht)).trans (h.pid t ht)
  parent t ht := (h'.parent t (h.live.symm ▸ ht)).trans (h.parent t ht)
  allNext t ht := (h'.allNext t (h.live.symm ▸ ht)).trans (h.allNext t ht)
  allTasks := h'.allTasks.trans h.allTasks
  zombie t ht := (h'.zombie t (h.live.symm ▸ ht)).trans (h.zombie t ht)

theorem SameTasks.sameFamily (h : SameTasks s s')
    (hzombie : ∀ t, s'.state t = .zombie ↔ s.state t = .zombie) : SameFamily s s' where
  live := h.live
  pid _ _ := congrFun h.pid _
  parent _ _ := congrFun h.parent _
  allNext _ _ := congrFun h.allNext _
  allTasks := h.allTasks
  zombie t _ := hzombie t

theorem sameFamily_setState {x : TaskState} (hx : x ≠ .zombie) (ht : s.state t ≠ .zombie) :
    SameFamily s (s.setState t x) := by
  refine (sameTasks_setState s t x).sameFamily fun u => ?_
  by_cases hu : u = t
  · simp [hu, hx, ht]
  · simp [hu]

theorem sameFamily_run (ht : s.state t ≠ .zombie) : SameFamily s (s.run t) := by
  obtain ⟨h₁, h₂, h₃, h₄, h₅, h₆⟩ := sameFamily_setState (x := .running) (by decide) ht
  exact ⟨h₁, h₂, h₃, h₄, h₅, h₆⟩

theorem pickNextTask_cases (s : Kernel) : s.pickNextTask = 0 ∨ s.pickNextTask = s.currentTask ∨
    s.state s.pickNextTask = .ready := by
  rcases picks_pickNextTask (s := s) (K := Set.univ) (fun _ _ => trivial) (fun _ => trivial)
    (fun _ => trivial) with hzero | hcur | ⟨-, hready⟩
  · exact .inl hzero
  · exact .inr (.inl hcur)
  · exact .inr (.inr hready)

theorem sameFamily_schedule : SameFamily s s.schedule := by
  rw [schedule]
  split
  · exact .refl s
  · rename_i hstay
    rw [not_or, not_or] at hstay
    have hready := ((pickNextTask_cases s).resolve_left hstay.1).resolve_left hstay.2.1
    split_ifs with hrun
    · have hset : SameFamily s (s.setState s.currentTask .ready) :=
        sameFamily_setState (by decide) (by simp [hrun])
      refine hset.trans (sameFamily_run ?_)
      rw [state_setState, Function.update_of_ne hstay.2.1, hready]
      decide
    · exact sameFamily_run (by simp [hready])

theorem sameFamily_wakeParent : SameFamily s (s.wakeParent t) := by
  rw [wakeParent]
  split_ifs with hwake
  · exact sameFamily_setState (by decide) (by simp [hwake.2])
  · exact .refl s

theorem sysExit_frame {status : Word} (hcur : s.currentTask ≠ 0)
    (hcall : s.sysExit status = some s') :
    SameFamily (s.markZombie s.currentTask status) s' := by
  obtain ⟨-, -, temp, s₂, -, rfl, hne, hdead, rfl⟩ := sysExit_some hcur hcall
  set dead := s.currentTask
  set z := s.markZombie dead status
  have hunlink : SameFamily z (z.unlink temp dead) := by
    refine (sameTasks_unlink z temp dead).sameFamily fun t => ?_
    rw [state_unlink]
  refine (hunlink.trans sameFamily_wakeParent).trans (sameFamily_run ?_)
  have hcur' : ((z.unlink temp dead).wakeParent dead).currentTask = dead := by
    rw [currentTask_wakeParent]
    rfl
  have hready := ((pickNextTask_cases _).resolve_left hne).resolve_left (hcur'.symm ▸ hdead)
  rw [hready]
  decide

theorem sameFamily_scratch (hp : p ∉ s.tasks.live) {tcb : Tcb} {pid : Word} :
    SameFamily s { s with tasks := (s.tasks.put p tcb).free p, nextPid := pid } := by
  have hget : ∀ t ∈ s.tasks.live, ((s.tasks.put p tcb).free p).get t = s.tasks.get t :=
    fun t ht => Cells.get_put_of_ne fun heq : t = p => hp (heq ▸ ht)
  refine ⟨?_, fun t ht => congrArg Tcb.pid (hget t ht), fun t ht => congrArg Tcb.parent (hget t ht),
    fun t ht => congrArg Tcb.allNext (hget t ht), rfl, fun t ht => ?_⟩
  · change (insert p s.tasks.live).erase p = _
    rw [Finset.erase_insert hp]
  · rw [show Kernel.state _ t = s.state t from congrArg Tcb.state (hget t ht)]

end Aevros.Proc.Kernel
