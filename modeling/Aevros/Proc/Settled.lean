import Aevros.Proc.Families

/-! # What calls keep of all tasks

Tasks that are no zombies are in the queue, except for some that no walk comes to, and the list of
all tasks goes through those that have not been freed.
-/

namespace Aevros.Proc.Kernel

open Finset

variable {s s' s₁ : Kernel} {l : List ℕ} {X : Set ℕ} {t p : ℕ}

/-- Tasks that are neither zombies nor among `X` are in the queue. -/
def Queued (X : Set ℕ) (l : List ℕ) (s : Kernel) : Prop :=
  ∀ t ∈ s.tasks.live, t ∉ X → s.state t ≠ .zombie → t ∈ l

theorem Queued.congr (hq : Queued X l s) (hsame : SameFamily s s') : Queued X l s' := by
  intro t ht hX hz
  rw [hsame.live] at ht
  exact hq t ht hX fun hzombie => hz ((hsame.zombie t ht).mpr hzombie)

/-- What calls keep that leave the queue. The tasks of `X` have no children. -/
structure Settled (X : Set ℕ) (s : Kernel) : Prop where
  ring : ∃ l K, Ringed X l K s ∧ Queued X l s
  alive : s.Alive
  list : ∃ L, Listed L s
  stray : ∀ t ∈ X, s.state t ≠ .zombie
  barren : ∀ t ∈ s.tasks.live, s.parent t ∉ X

theorem get_create (hp : p ∉ s.tasks.live) (hp0 : p ≠ 0) (name : List Byte)
    (ht : t ∈ s.tasks.live) : (s.enter p name).tasks.get t = s.tasks.get t := by
  rw [get_enter hp0, if_neg fun heq : t = p => hp (heq ▸ ht)]

/-- What `sys_exit` needs to come to its end. -/
structure CanExit (s : Kernel) : Prop where
  parent : s.parent s.currentTask = 0 ∨ s.parent s.currentTask ∈ s.tasks.live
  few : s.tasks.live.card ≤ 0xFFFF
  other : ∃ t, s.OnQueue t ∧ t ≠ s.currentTask ∧
    (s.state t = .ready ∨ t = s.parent s.currentTask ∧ s.state t = .blocked)

section

variable (hs : Settled X s)

include hs

namespace Settled

theorem current_live : s.currentTask ∈ s.tasks.live := by
  obtain ⟨_, _, hring, -⟩ := hs.ring
  exact hring.current

theorem current_ne : s.currentTask ≠ 0 := by
  obtain ⟨_, _, hring, -⟩ := hs.ring
  exact fun hzero => hring.null (hzero ▸ hring.current)

theorem congr (hsame : SameFamily s s') (hring : ∃ K', Ringed X l K' s') (hq : Queued X l s)
    (halive : s'.Alive) : Settled X s' where
  ring := by
    obtain ⟨K', hring⟩ := hring
    exact ⟨l, K', hring, hq.congr hsame⟩
  alive := halive
  list := by
    obtain ⟨L, hL⟩ := hs.list
    exact ⟨L, hL.congr hsame⟩
  stray t ht hz := by
    obtain ⟨_, _, hring, -⟩ := hs.ring
    exact hs.stray t ht ((hsame.zombie t (hring.apart t ht).1).mp hz)
  barren t ht := by
    rw [hsame.live] at ht
    rw [hsame.parent t ht]
    exact hs.barren t ht

theorem schedule : Settled X s.schedule := by
  obtain ⟨l, K, hring, hq⟩ := hs.ring
  obtain ⟨hring', halive'⟩ := hring.schedule hs.alive
  exact hs.congr sameFamily_schedule hring' hq halive'

theorem block : Settled X (s.setState s.currentTask .blocked) := by
  obtain ⟨l, K, hring, hq⟩ := hs.ring
  exact hs.congr (sameFamily_setState (by decide) hs.alive)
    ⟨K, hring.setState (by decide) (by simp)⟩ hq (by simp [Alive])

theorem creates (hcall : Creates s s') : Settled X s' := by
  obtain ⟨l, K, hring, hq⟩ := hs.ring
  cases hcall with
  | nothing => exact hs
  | @gaveBack p tcb pid hp =>
    have hsame : SameFamily s { s with tasks := (s.tasks.put p tcb).free p, nextPid := pid } :=
      sameFamily_scratch hp
    exact hs.congr hsame ⟨K, hring.scratch hp⟩ hq fun hz =>
      hs.alive ((hsame.zombie _ hring.current).mp hz)
  | @entered p name s' hp hp0 hcall =>
    obtain ⟨hring', halive', htasks, hstate⟩ := hring.create hs.alive hp hp0 hcall
    have hsame : SameFamily (s.enter p name) s' := htasks.sameFamily fun t => by rw [hstate]
    have hstate' : ∀ t ∈ s.tasks.live, s'.state t = s.state t := fun t ht =>
      (congrFun hstate t).trans (congrArg Tcb.state (get_create hp hp0 name ht))
    exact {
      ring := by
        refine ⟨_, _, hring', fun t ht htX hz => ?_⟩
        rw [hsame.live, live_enter, mem_insert] at ht
        rcases ht with rfl | ht
        · simp
        · rw [hstate' t ht] at hz
          exact List.mem_append_left _ (hq t ht htX hz)
      alive := halive'
      list := by
        obtain ⟨L, hL⟩ := hs.list
        exact ⟨_, (hL.enter hp hp0).congr hsame⟩
      stray := fun t ht => by
        rw [hstate' t (hring.apart t ht).1]
        exact hs.stray t ht
      barren := by
        intro t ht
        rw [hsame.live] at ht
        rw [hsame.parent t ht]
        rw [live_enter, mem_insert] at ht
        rcases ht with rfl | ht
        · rw [Kernel.parent, get_enter hp0, if_pos rfl]
          exact fun hX => (hring.apart _ hX).2.2 rfl
        · rw [Kernel.parent, get_create hp hp0 name ht]
          exact hs.barren t ht }

theorem exit {status : Word}
    (hparent : s.parent s.currentTask = 0 ∨ s.parent s.currentTask ∈ s.tasks.live)
    (hcall : s.sysExit status = some s') : Settled X s' := by
  obtain ⟨l, K, hring, hq⟩ := hs.ring
  have hsame := sysExit_frame hs.current_ne hcall
  -- a parent that waits is in the queue
  obtain ⟨hring', halive'⟩ := hring.exit (fun hne hblocked =>
    hq _ (hparent.resolve_left hne) (hs.barren _ hring.current) (by simp [hblocked])) hcall
  have hmark : ∀ t, (s.markZombie s.currentTask status).state t ≠ .zombie →
      t ≠ s.currentTask ∧ s.state t ≠ .zombie := by
    intro t hz
    by_cases ht : t = s.currentTask
    · simp [ht] at hz
    · exact ⟨ht, by simpa [ht] using hz⟩
  exact {
    ring := by
      refine ⟨_, _, hring', fun t ht htX hz => ?_⟩
      rw [hsame.live] at ht
      obtain ⟨hne, hz⟩ := hmark t fun hzombie => hz ((hsame.zombie t ht).mpr hzombie)
      exact hring.queue.nodup.mem_erase_iff.mpr ⟨hne, hq t ht htX hz⟩
    alive := halive'
    list := by
      obtain ⟨L, hL⟩ := hs.list
      have hmarked : Listed L (s.markZombie s.currentTask status) :=
        ⟨by rw [allNext_markZombie]; exact hL.chain, hL.mem_iff⟩
      exact ⟨L, hmarked.congr hsame⟩
    stray := by
      intro t ht hz
      have hz := (hsame.zombie t (hring.apart t ht).1).mp hz
      rw [state_markZombie, Function.update_of_ne (hring.apart t ht).2.2] at hz
      exact hs.stray t ht hz
    barren := by
      intro t ht
      rw [hsame.live] at ht
      rw [hsame.parent t ht, parent_markZombie]
      exact hs.barren t ht }

end Settled

theorem Creates.frame (hcall : Creates s s') :
    s'.currentTask = s.currentTask ∧ s.tasks.live ⊆ s'.tasks.live ∧
      (∀ t ∈ s.tasks.live, s'.state t = s.state t ∧ s'.parent t = s.parent t ∧ s'.pid t = s.pid t) ∧
      ∀ t ∈ s'.tasks.live, t ∉ s.tasks.live → s'.state t = .ready := by
  obtain ⟨l, K, hring, -⟩ := hs.ring
  cases hcall with
  | nothing =>
    exact ⟨rfl, subset_rfl, fun t _ => ⟨rfl, rfl, rfl⟩, fun t ht hnot => absurd ht hnot⟩
  | @gaveBack p tcb pid hp =>
    have hget : ∀ t ∈ s.tasks.live, ((s.tasks.put p tcb).free p).get t = s.tasks.get t :=
      fun t ht => Cells.get_put_of_ne fun heq : t = p => hp (heq ▸ ht)
    have hlive : ((s.tasks.put p tcb).free p).live = s.tasks.live := by
      rw [Cells.live_free, Cells.live_put, erase_insert hp]
    refine ⟨rfl, hlive.symm.subset, fun t ht => ?_, fun t ht hnot => absurd (hlive ▸ ht) hnot⟩
    exact ⟨congrArg Tcb.state (hget t ht), congrArg Tcb.parent (hget t ht),
      congrArg Tcb.pid (hget t ht)⟩
  | @entered p name s' hp hp0 hcall =>
    obtain ⟨-, -, htasks, hstate⟩ := hring.create hs.alive hp hp0 hcall
    refine ⟨htasks.currentTask.trans currentTask_enter, ?_, fun t ht => ?_, fun t ht hnot => ?_⟩
    · rw [htasks.live, live_enter]
      exact subset_insert p _
    · have hget := get_create hp hp0 name ht
      rw [hstate, htasks.parent, htasks.pid]
      exact ⟨congrArg Tcb.state hget, congrArg Tcb.parent hget, congrArg Tcb.pid hget⟩
    · rw [htasks.live, live_enter, mem_insert] at ht
      rw [hstate, Kernel.state, get_enter hp0, if_pos (ht.resolve_right hnot)]

theorem Settled.exits (hexit : s.CanExit) (status : Word) : ∃ s', s.sysExit status = some s' := by
  obtain ⟨l, K, hring, hq⟩ := hs.ring
  obtain ⟨t, ht, hne, hstate⟩ := hexit.other
  rw [hring.queue.onQueue_iff] at ht
  have hmem : s.currentTask ∈ l :=
    hq _ hring.current (fun hX => (hring.apart _ hX).2.2 rfl) hs.alive
  obtain ⟨hqueue, hc⟩ := hring.queue.circle hmem
  have hself : s.next s.currentTask ≠ s.currentTask := by
    intro hself
    have hhead := hc.eq_head hmem hself
    rw [hc.eq_singleton (hhead ▸ hself), List.mem_singleton] at ht
    exact hne (ht.trans hhead.symm)
  obtain ⟨temp, -, hnext, hfind⟩ := hc.before_eq hmem (hring.queue.length_le hring.queue_live)
  have hleave := hring.leave status hself hqueue hfind
  set z := (s.markZombie s.currentTask status).unlink temp s.currentTask with hz
  have hstate' : ∀ u, u ≠ s.currentTask → z.state u = s.state u := fun u hu => by
    rw [state_unlink, state_markZombie, Function.update_of_ne hu]
  have hparent : z.parent s.currentTask = s.parent s.currentTask := by
    rw [(sameTasks_unlink _ _ _).parent, parent_markZombie]
  have hready : (z.wakeParent s.currentTask).state t = .ready := by
    rw [wakeParent, hparent]
    rcases hstate with hready | ⟨rfl, hblocked⟩
    · split_ifs
      · by_cases heq : t = s.parent s.currentTask
        · simp [heq]
        · simpa [heq, hstate' t hne] using hready
      · rw [hstate' t hne, hready]
    · have hp0 : s.parent s.currentTask ≠ 0 := fun hzero => hring.zero_notMem (hzero ▸ ht)
      rw [if_pos ⟨hp0, (hstate' _ hne).trans hblocked⟩]
      simp
  have hlen : (l.erase s.currentTask).length ≤ 0xFFFF :=
    (List.length_erase_le.trans (length_le_card hring.queue.nodup hring.queue_live)).trans hexit.few
  have hwake : (z.wakeParent s.currentTask).readyQueue = z.readyQueue ∧
      (z.wakeParent s.currentTask).next = z.next := by
    rw [wakeParent]
    split_ifs <;> simp
  have hcur : (z.wakeParent s.currentTask).currentTask = s.currentTask := currentTask_wakeParent
  have hahead : (z.wakeParent s.currentTask).next (z.wakeParent s.currentTask).currentTask ∈
      l.erase s.currentTask := by
    have htemp : s.currentTask ≠ temp := fun heq => hself (heq ▸ hnext)
    rw [hcur, hwake.2, next_unlink, Function.update_of_ne htemp, next_markZombie]
    exact hring.queue.nodup.mem_erase_iff.mpr ⟨hself, hc.next_mem hmem⟩
  obtain ⟨hpick, -, hdead⟩ := (hleave.queue.congr hwake.1 fun u _ => congrFun hwake.2 u).pick_ready
    hleave.zero_notMem hahead (hcur.symm ▸ hs.current_ne) hlen
    ⟨t, hring.queue.nodup.mem_erase_iff.mpr ⟨hne, ht⟩, hready, hcur.symm ▸ hne⟩
  rw [hcur] at hdead
  exact ⟨_, sysExit_eq hs.current_ne hself hqueue hfind rfl
    (fun hzero => hleave.zero_notMem (hzero ▸ hpick)) hdead⟩

theorem Settled.notOnQueue (hz : s.state t = .zombie) : ¬ s.OnQueue t := by
  obtain ⟨l, K, hring, -⟩ := hs.ring
  rw [hring.queue.onQueue_iff]
  exact fun hmem => hring.calm t (hring.reach t hmem) hz

theorem Settled.reap (ht : t ∈ s.tasks.live) (hz : s.state t = .zombie)
    (hun : s.unregister t = some s₁) : Settled X (s₁.freeTask t) := by
  obtain ⟨l, K, hring, hq⟩ := hs.ring
  obtain ⟨hlive, hstate, hnext, hparent, hqueue, hcur⟩ := unregister_frame hun
  have herase : (s₁.freeTask t).tasks.live = s.tasks.live.erase t := by
    rw [← hlive]
    rfl
  have hold : ∀ u ∈ (s₁.freeTask t).tasks.live, u ∈ s.tasks.live := fun u hu =>
    mem_of_mem_erase (herase ▸ hu)
  have hkept : ∀ u ∈ s.tasks.live, s.state u ≠ .zombie → u ∈ (s₁.freeTask t).tasks.live := by
    intro u hu hne
    rw [herase]
    exact mem_erase.mpr ⟨fun heq : u = t => hne (heq ▸ hz), hu⟩
  exact {
    ring := by
      -- no walk comes to a zombie, so nothing that matters is freed
      have hring' : Ringed X l K (s₁.freeTask t) := by
        apply hring.frame hold _ _ _ (fun u _ => congrFun hnext u) (fun u _ => congrFun hstate u)
          hqueue hcur
        · exact fun u hu => hkept u (hring.live u hu) (hring.calm u hu)
        · exact hkept _ hring.current hs.alive
        · exact fun u hu => hkept u (hring.apart u hu).1 (hs.stray u hu)
      refine ⟨l, K, hring', fun u hu huX hu' => hq u (hold u hu) huX ?_⟩
      rw [← hstate]
      exact hu'
    alive := by
      change s₁.state s₁.currentTask ≠ _
      rw [hcur, hstate]
      exact hs.alive
    list := by
      obtain ⟨L, hL⟩ := hs.list
      exact hL.reap hun ((hL.mem_iff t).mpr ht)
    stray := fun u hu => by
      change s₁.state u ≠ _
      rw [hstate]
      exact hs.stray u hu
    barren := fun u hu => by
      change s₁.parent u ∉ X
      rw [hparent]
      exact hs.barren u (hold u hu) }

end

theorem settled_boot (worker : Bool) : Settled {t | worker = true ∧ t = 1} (boot worker) where
  ring := by
    refine ⟨_, _, ringed_boot worker, fun t ht htX _ => ?_⟩
    cases worker with
    | false => simpa [boot] using ht
    | true => simpa [boot, show t ≠ 1 by simpa using htX] using ht
  alive := alive_boot worker
  list := by
    cases worker with
    | false =>
      refine ⟨[2], ⟨⟨rfl, by decide, rfl⟩, ?_⟩⟩
      simp [boot]
    | true =>
      refine ⟨[2, 1], ⟨⟨rfl, by decide, rfl, by decide, rfl⟩, ?_⟩⟩
      simp [boot, or_comm]
  stray := by
    rintro t ⟨rfl, rfl⟩
    decide
  barren := by
    rintro t ht ⟨-, hone⟩
    have hnull : (boot worker).parent t = 0 := by
      cases worker <;> revert t <;> decide
    omega

end Aevros.Proc.Kernel
