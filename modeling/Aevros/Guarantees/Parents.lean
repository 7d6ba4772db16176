import Aevros.Proc.Settled

/-! # Parents

The tasks are numbered in the order in which they are created. A task is waited for by the task
that created it, and freed once, as long as no task exits before all that it created have been
waited for.
-/

namespace Aevros.Proc

open Finset Partial

namespace Kernel

variable {s s' : Kernel}

def born (s s' : Kernel) : Finset ℕ := s'.tasks.live \ s.tasks.live

def freed (s s' : Kernel) : Finset ℕ := s.tasks.live \ s'.tasks.live

end Kernel

structure History where
  count : ℕ
  serial : ℕ → ℕ
  maker : ℕ → ℕ
  reaped : ℕ → ℕ

namespace History

open Kernel

@[simp] def note (h : History) (s s' : Kernel) : History where
  count := h.count + (born s s').card
  serial t := if t ∈ born s s' then h.count else h.serial t
  maker t := if t ∈ born s s' then h.serial s.currentTask else h.maker t
  reaped n := h.reaped n + ((freed s s').filter fun t => h.serial t = n).card

def start : History := ⟨3, fun t => t, fun _ => 0, fun _ => 0⟩

end History

namespace Kernel

variable {s s' : Kernel} {h h' : History} {l L : List ℕ} {K X : Set ℕ} {t p : ℕ}

def tell (x : Kernel × History) (e : Event) : Option (Kernel × History) :=
  (x.1.step e).map fun s' => (s', x.2.note x.1 s')

/-- The calls that this is about. A task that exits has no children left. -/
def Tended (s : Kernel) (e : Event) : Prop :=
  match e.call with
  | .exit _ => ∀ t ∈ s.tasks.live, s.parent t ≠ s.currentTask
  | .createKernel | .createUser | .fork | .exec _ _ | .waitpid _ | .schedule => True
  | _ => False

instance decidableTended (s : Kernel) (e : Event) : Decidable (s.Tended e) :=
  match e with
  | ⟨.exit _, _⟩ => inferInstanceAs (Decidable (∀ t ∈ s.tasks.live, s.parent t ≠ s.currentTask))
  | ⟨.createKernel, _⟩ | ⟨.createUser, _⟩ | ⟨.fork, _⟩ | ⟨.exec _ _, _⟩ | ⟨.waitpid _, _⟩
  | ⟨.schedule, _⟩ => inferInstanceAs (Decidable True)
  | ⟨.addReady _, _⟩ | ⟨.removeReady _, _⟩ | ⟨.save _, _⟩ | ⟨.work, _⟩
  | ⟨.restore _ _, _⟩ => inferInstanceAs (Decidable False)

/-- Parents are alive and made their children, and no task that there is was freed. -/
structure Family (s : Kernel) (h : History) : Prop where
  parent : ∀ t ∈ s.tasks.live, s.parent t = 0 ∨ s.parent t ∈ s.tasks.live
  childless : ∀ t ∈ s.tasks.live, s.parent t ≠ 0 → s.state (s.parent t) ≠ .zombie
  maker : ∀ t ∈ s.tasks.live, s.parent t ≠ 0 → h.maker t = h.serial (s.parent t)
  serial_lt : ∀ t ∈ s.tasks.live, h.serial t < h.count
  serial_inj : ∀ t ∈ s.tasks.live, ∀ u ∈ s.tasks.live, h.serial t = h.serial u → t = u
  unreaped : ∀ t ∈ s.tasks.live, h.reaped (h.serial t) = 0
  unborn : ∀ n, h.count ≤ n → h.reaped n = 0
  once : ∀ n, h.reaped n ≤ 1

theorem note_of_live (hlive : s'.tasks.live = s.tasks.live) : h.note s s' = h := by
  have hborn : born s s' = ∅ := by rw [born, hlive, Finset.sdiff_self]
  have hfreed : freed s s' = ∅ := by rw [freed, hlive, Finset.sdiff_self]
  simp [hborn, hfreed]

theorem note_congr {s₁ : Kernel} (hlive : s'.tasks.live = s₁.tasks.live) :
    h.note s s' = h.note s s₁ := by
  have hborn : born s s' = born s s₁ := by rw [born, hlive, born]
  have hfreed : freed s s' = freed s s₁ := by rw [freed, hlive, freed]
  rw [History.note, hborn, hfreed, History.note]

theorem freed_erase (ht : t ∈ s.tasks.live) (hlive : s'.tasks.live = s.tasks.live.erase t) :
    freed s s' = {t} := by
  ext u
  simp only [freed, hlive, mem_sdiff, mem_erase, mem_singleton]
  constructor
  · rintro ⟨hu, hnot⟩
    by_contra hne
    exact hnot ⟨hne, hu⟩
  · rintro rfl
    exact ⟨ht, fun hmem => hmem.1 rfl⟩

section

variable (hf : Family s h)

include hf

theorem Family.congr (hsame : SameFamily s s') : Family s' h := by
  have hlive := hsame.live
  constructor
  · intro t ht
    rw [hlive] at ht ⊢
    rw [hsame.parent t ht]
    exact hf.parent t ht
  · intro t ht hne hz
    rw [hlive] at ht
    rw [hsame.parent t ht] at hne hz
    have hp := (hf.parent t ht).resolve_left hne
    exact hf.childless t ht hne ((hsame.zombie _ hp).mp hz)
  · intro t ht hne
    rw [hlive] at ht
    rw [hsame.parent t ht] at hne ⊢
    exact hf.maker t ht hne
  · exact hlive ▸ hf.serial_lt
  · exact hlive ▸ hf.serial_inj
  · exact hlive ▸ hf.unreaped
  · exact hf.unborn
  · exact hf.once

theorem Family.mark {status : Word} (halone : ∀ t ∈ s.tasks.live, s.parent t ≠ s.currentTask) :
    Family (s.markZombie s.currentTask status) h := { hf with
  parent := by
    rw [parent_markZombie]
    exact hf.parent
  childless t ht hne := by
    rw [parent_markZombie] at hne ⊢
    rw [state_markZombie, Function.update_of_ne (halone t ht)]
    exact hf.childless t ht hne
  maker := by
    rw [parent_markZombie]
    exact hf.maker }

theorem Family.enter (hcur : s.currentTask ∈ s.tasks.live) (halive : s.Alive)
    (hp : p ∉ s.tasks.live) (hp0 : p ≠ 0) {name : List Byte} :
    Family (s.enter p name) (h.note s (s.enter p name)) := by
  have hborn : born s (s.enter p name) = {p} := by
    rw [born, live_enter, insert_sdiff_of_notMem _ hp, sdiff_self]
    rfl
  have hfreed : freed s (s.enter p name) = ∅ := by
    rw [freed, live_enter, sdiff_eq_empty_iff_subset]
    exact subset_insert p _
  have hne : ∀ {t : ℕ}, t ∈ s.tasks.live → t ≠ p := fun ht heq => hp (heq ▸ ht)
  have hold : ∀ {t : ℕ}, t ∈ s.tasks.live → (s.enter p name).tasks.get t = s.tasks.get t :=
    fun ht => by rw [get_enter hp0, if_neg (hne ht)]
  have hparent : ∀ {t : ℕ}, t ∈ s.tasks.live → (s.enter p name).parent t = s.parent t :=
    fun ht => congrArg Tcb.parent (hold ht)
  have hnew : (s.enter p name).parent p = s.currentTask := by
    rw [Kernel.parent, get_enter hp0, if_pos rfl]
  have hstate : ∀ {t : ℕ}, t ∈ s.tasks.live → (s.enter p name).state t = s.state t :=
    fun ht => congrArg Tcb.state (hold ht)
  constructor
  · intro t ht
    rw [live_enter, mem_insert] at ht ⊢
    rcases ht with rfl | ht
    · exact .inr (.inr (hnew ▸ hcur))
    · rw [hparent ht]
      exact (hf.parent t ht).imp_right .inr
  · intro t ht hne'
    rw [live_enter, mem_insert] at ht
    rcases ht with rfl | ht
    · rw [hnew, hstate hcur]
      exact halive
    · rw [hparent ht] at hne' ⊢
      rw [hstate ((hf.parent t ht).resolve_left hne')]
      exact hf.childless t ht hne'
  · intro t ht hne'
    rw [live_enter, mem_insert] at ht
    rcases ht with rfl | ht
    · simp [hborn, hnew, hne hcur]
    · rw [hparent ht] at hne' ⊢
      have hpt := hne ((hf.parent t ht).resolve_left hne')
      simpa [hborn, hne ht, hpt] using hf.maker t ht hne'
  · intro t ht
    rw [live_enter, mem_insert] at ht
    rcases ht with rfl | ht
    · simp [hborn]
    · have := hf.serial_lt t ht
      simp [hborn, hne ht]
      omega
  · intro t ht u hu heq
    rw [live_enter, mem_insert] at ht hu
    rcases ht with rfl | ht <;> rcases hu with rfl | hu
    · rfl
    · have := hf.serial_lt u hu
      simp [hborn] at heq
      omega
    · have := hf.serial_lt t ht
      simp [hborn] at heq
      omega
    · exact hf.serial_inj t ht u hu (by simpa [hborn, hne ht, hne hu] using heq)
  · intro t ht
    rw [live_enter, mem_insert] at ht
    rcases ht with rfl | ht
    · simpa [hborn, hfreed] using hf.unborn h.count le_rfl
    · simpa [hborn, hfreed, hne ht] using hf.unreaped t ht
  · intro n hn
    simp only [History.note, hfreed] at hn ⊢
    simpa using hf.unborn n (by omega)
  · intro n
    simpa [hfreed] using hf.once n

theorem Family.reap (ht : t ∈ s.tasks.live) (hz : s.state t = .zombie)
    (hlive : s'.tasks.live = s.tasks.live.erase t) (hstate : s'.state = s.state)
    (hparent : s'.parent = s.parent) : Family s' (h.note s s') := by
  have hborn : born s s' = ∅ := by
    rw [born, hlive, sdiff_eq_empty_iff_subset]
    exact erase_subset t _
  have hfreed := freed_erase ht hlive
  have hold : ∀ {u : ℕ}, u ∈ s'.tasks.live → u ≠ t ∧ u ∈ s.tasks.live := fun hu => by
    rwa [hlive, mem_erase] at hu
  have hserial : (h.note s s').serial = h.serial := by simp [hborn]
  have hmaker : (h.note s s').maker = h.maker := by simp [hborn]
  have hcount : (h.note s s').count = h.count := by simp [hborn]
  have hreaped : ∀ n, (h.note s s').reaped n = h.reaped n + if h.serial t = n then 1 else 0 := by
    intro n
    simp only [History.note, hfreed, filter_singleton]
    split_ifs <;> rfl
  constructor
  · intro u hu
    rw [hparent, hlive, mem_erase]
    by_cases hzero : s.parent u = 0
    · exact .inl hzero
    · have hmem := (hf.parent u (hold hu).2).resolve_left hzero
      exact .inr ⟨fun heq => hf.childless u (hold hu).2 hzero (heq ▸ hz), hmem⟩
  · intro u hu
    rw [hparent, hstate]
    exact hf.childless u (hold hu).2
  · intro u hu
    rw [hparent, hmaker, hserial]
    exact hf.maker u (hold hu).2
  · intro u hu
    rw [hserial, hcount]
    exact hf.serial_lt u (hold hu).2
  · intro u hu v hv
    rw [hserial]
    exact hf.serial_inj u (hold hu).2 v (hold hv).2
  · intro u hu
    have hne : h.serial t ≠ h.serial u := fun heq =>
      (hold hu).1 (hf.serial_inj u (hold hu).2 t ht heq.symm)
    rw [hserial, hreaped, if_neg hne]
    exact hf.unreaped u (hold hu).2
  · intro n hn
    rw [hcount] at hn
    have hlt := hf.serial_lt t ht
    rw [hreaped, if_neg (by omega)]
    exact hf.unborn n hn
  · intro n
    rw [hreaped]
    split_ifs with heq
    · rw [← heq, hf.unreaped t ht]
    · exact hf.once n

end

structure Tidy (X : Set ℕ) (s : Kernel) (h : History) : Prop where
  settled : Settled X s
  family : Family s h

theorem Tidy.creates (hs : Tidy X s h) (hcall : Creates s s') : Tidy X s' (h.note s s') := by
  refine ⟨hs.settled.creates hcall, ?_⟩
  obtain ⟨l, K, hring, -⟩ := hs.settled.ring
  cases hcall with
  | nothing =>
    rw [note_of_live rfl]
    exact hs.family
  | @gaveBack p tcb pid hp =>
    have hsame : SameFamily s { s with tasks := (s.tasks.put p tcb).free p, nextPid := pid } :=
      sameFamily_scratch hp
    rw [note_of_live hsame.live]
    exact hs.family.congr hsame
  | @entered p name s' hp hp0 hcall =>
    obtain ⟨-, -, htasks, hstate⟩ := hring.create hs.settled.alive hp hp0 hcall
    have hsame : SameFamily (s.enter p name) s' := htasks.sameFamily fun t => by rw [hstate]
    rw [note_congr hsame.live]
    exact (hs.family.enter hring.current hs.settled.alive hp hp0).congr hsame

theorem Tidy.exit (hs : Tidy X s h) {status : Word}
    (halone : ∀ t ∈ s.tasks.live, s.parent t ≠ s.currentTask)
    (hcall : s.sysExit status = some s') : Tidy X s' (h.note s s') := by
  have hsame := sysExit_frame hs.settled.current_ne hcall
  rw [note_of_live (show s'.tasks.live = s.tasks.live from hsame.live)]
  exact ⟨hs.settled.exit (hs.family.parent _ hs.settled.current_live) hcall,
    (hs.family.mark halone).congr hsame⟩

theorem Tidy.toReap (hs : Tidy X s h) {target : Word} (hreap : s.toReap target = some t) :
    t ∈ s.tasks.live ∧ s.parent t = s.currentTask ∧ s.state t = .zombie := by
  obtain ⟨hall, hparent, hz, -⟩ := toReap_some hreap
  obtain ⟨L, hL⟩ := hs.settled.list
  rw [hL.all_eq] at hall
  exact ⟨(hL.mem_iff t).mp hall, hparent, hz⟩

theorem live_reap {s₁ : Kernel} (hun : s.unregister t = some s₁) :
    (s₁.freeTask t).tasks.live = s.tasks.live.erase t := by
  rw [← (unregister_frame hun).1]
  rfl

theorem sameFamily_block (hs : Settled X s) :
    SameFamily s (s.setState s.currentTask .blocked).schedule :=
  (sameFamily_setState (by decide) hs.alive).trans sameFamily_schedule

theorem Tidy.waitpid (hs : Tidy X s h) {target : Word} {r : Waited × Kernel}
    (hcall : s.sysWaitpid target = some r) : Tidy X r.2 (h.note s r.2) := by
  rcases sysWaitpid_cases hs.settled.current_ne hcall with ⟨t, s₁, hreap, hun, rfl⟩ | rfl | rfl
  · obtain ⟨ht, -, hz⟩ := hs.toReap hreap
    obtain ⟨-, hstate, -, hparent, -, -⟩ := unregister_frame hun
    exact ⟨hs.settled.reap ht hz hun, hs.family.reap ht hz (live_reap hun) hstate hparent⟩
  · have hsame := sameFamily_block hs.settled
    rw [note_of_live hsame.live]
    exact ⟨hs.settled.block.schedule, hs.family.congr hsame⟩
  · rw [note_of_live rfl]
    exact hs

theorem Tidy.step (hs : Tidy X s h) {e : Event} (htended : s.Tended e)
    (hstep : s.step e = some s') : Tidy X s' (h.note s s') := by
  obtain ⟨call, mem⟩ := e
  cases call with
  | createKernel => exact hs.creates (creates_taskCreateKernel hstep)
  | createUser => exact hs.creates (creates_taskCreateUser hstep)
  | fork => exact hs.creates (creates_doFork hstep)
  | exec path loads => exact hs.creates (creates_sysExec hstep)
  | exit status => exact hs.exit htended hstep
  | waitpid target =>
    obtain ⟨r, hcall, rfl⟩ := Option.map_eq_some_iff.mp hstep
    exact hs.waitpid hcall
  | schedule =>
    cases hstep
    rw [note_of_live sameFamily_schedule.live]
    exact ⟨hs.settled.schedule, hs.family.congr sameFamily_schedule⟩
  | addReady | removeReady | save | work | restore => exact htended.elim

theorem family_boot (worker : Bool) : Family (boot worker) History.start := by
  cases worker <;> constructor <;> first | decide | simp [History.start]

/-- A turn frees children of the caller that have exited, and returns what is known of one. -/
def ReapsOwn (s : Kernel) (h : History) (r : Waited × Kernel) : Prop :=
  (∀ t ∈ freed s r.2, s.state t = .zombie ∧ h.maker t = h.serial s.currentTask) ∧
    ∀ pid status, r.1 = .reaped pid status →
      ∃ t ∈ freed s r.2, (s.tasks.get t).pid = pid ∧ (s.tasks.get t).exitCode = status

theorem Tidy.reapsOwn (hs : Tidy X s h) {target : Word} {r : Waited × Kernel}
    (hcall : s.sysWaitpid target = some r) : ReapsOwn s h r := by
  have hcur := hs.settled.current_ne
  have hnothing : ∀ {s' : Kernel} {x : Waited}, s'.tasks.live = s.tasks.live →
      (∀ pid status, x ≠ .reaped pid status) → ReapsOwn s h (x, s') := by
    intro s' x hlive hx
    constructor
    · simp [freed, hlive]
    · exact fun pid status heq => absurd heq (hx pid status)
  rcases sysWaitpid_cases hcur hcall with ⟨t, s₁, hreap, hun, rfl⟩ | rfl | rfl
  · obtain ⟨ht, hparent, hz⟩ := hs.toReap hreap
    have hfreed := freed_erase ht (live_reap hun)
    constructor
    · intro u hu
      obtain rfl := mem_singleton.mp (hfreed ▸ hu)
      rw [← hparent]
      exact ⟨hz, hs.family.maker u ht (hparent ▸ hcur)⟩
    · rintro _ _ ⟨⟩
      exact ⟨t, hfreed ▸ mem_singleton_self t, rfl, rfl⟩
  · exact hnothing (sameFamily_block hs.settled).live (by rintro _ _ ⟨⟩)
  · exact hnothing rfl (by rintro _ _ ⟨⟩)

/-- If tasks that exit have no children, each is freed once, by the parent that made it. -/
theorem parents_sound {worker : Bool} {es : List Event}
    (hrun : Takes tell (fun x e => x.1.Tended e) (boot worker, History.start) es (s, h)) :
    (∀ t ∈ s.tasks.live, s.parent t = 0 ∨ s.parent t ∈ s.tasks.live) ∧
      (∀ target r, s.sysWaitpid target = some r → ReapsOwn s h r) ∧ ∀ n, h.reaped n ≤ 1 := by
  have hrule : ∀ (x : Kernel × History) (e : Event) x',
      Tidy {t | worker = true ∧ t = 1} x.1 x.2 → x.1.Tended e → tell x e = some x' →
        Tidy {t | worker = true ∧ t = 1} x'.1 x'.2 := by
    intro x e x' hx htended hstep
    obtain ⟨s', hcall, rfl⟩ := Option.map_eq_some_iff.mp hstep
    exact hx.step htended hcall
  have hs := hrun.invariant (I := fun x => Tidy {t | worker = true ∧ t = 1} x.1 x.2) hrule
    ⟨settled_boot worker, family_boot worker⟩
  exact ⟨hs.family.parent, fun _ _ hcall => hs.reapsOwn hcall, hs.family.once⟩

def at3 : Supply := ⟨3, true, true, true⟩

def madeAndReaped : List Event :=
  [⟨.createKernel, at3⟩, ⟨.schedule, at3⟩, ⟨.exit 7, at3⟩, ⟨.waitpid 2, at3⟩]

def reapedOnce : Kernel × History :=
  (madeAndReaped.foldlM (checked tell fun x e => x.1.Tended e) (boot true, History.start)).getD
    (boot true, History.start)

theorem parents_after_reap : ((∀ t ∈ reapedOnce.1.tasks.live,
        reapedOnce.1.parent t = 0 ∨ reapedOnce.1.parent t ∈ reapedOnce.1.tasks.live) ∧
      (∀ target r, reapedOnce.1.sysWaitpid target = some r →
        ReapsOwn reapedOnce.1 reapedOnce.2 r) ∧ ∀ n, reapedOnce.2.reaped n ≤ 1) ∧
      reapedOnce.2.reaped 3 = 1 := by
  have hrun : Takes tell (fun x e => x.1.Tended e) (boot true, History.start) madeAndReaped
      reapedOnce := takes_foldlM (by decide +kernel)
  exact ⟨parents_sound hrun, by decide +kernel⟩

def orphaned : List Event :=
  [⟨.createKernel, at3⟩, ⟨.schedule, at3⟩, ⟨.createKernel, ⟨4, true, true, true⟩⟩, ⟨.exit 0, at3⟩,
    ⟨.schedule, at3⟩, ⟨.waitpid 2, at3⟩]

def adopted : List Event := [⟨.createKernel, at3⟩, ⟨.schedule, at3⟩, ⟨.exit 0, at3⟩]

def outcome (x : Kernel × History) (es : List Event) : Kernel × History :=
  (es.foldlM (checked tell fun _ _ => True) x).getD x

theorem orphan_reaped_by_stranger : ∃ x y : Kernel × History,
      Takes tell (fun _ _ => True) (boot true, History.start) orphaned x ∧
      4 ∈ x.1.tasks.live ∧ x.1.parent 4 = 3 ∧ 3 ∉ x.1.tasks.live ∧
      Takes tell (fun _ _ => True) x adopted y ∧ y.1.currentTask = 3 ∧
      ∃ r, y.1.sysWaitpid (-1) = some r ∧ freed y.1 r.2 = {4} ∧ ¬ ReapsOwn y.1 y.2 r := by
  let x := outcome (boot true, History.start) orphaned
  let y := outcome x adopted
  have hx : Takes tell (fun _ _ => True) (boot true, History.start) orphaned x :=
    takes_foldlM (by decide +kernel)
  have hy : Takes tell (fun _ _ => True) x adopted y := takes_foldlM (by decide +kernel)
  have hreap : (y.1.sysWaitpid (-1)).map (fun r => freed y.1 r.2) = some {4} := by decide +kernel
  have hmaker : y.2.maker 4 ≠ y.2.serial y.1.currentTask := by decide +kernel
  obtain ⟨r, hr, hfreed⟩ := Option.map_eq_some_iff.mp hreap
  refine ⟨x, y, hx, by decide +kernel, by decide +kernel, by decide +kernel, hy,
    by decide +kernel, r, hr, hfreed, fun hown => hmaker (hown.1 4 ?_).2⟩
  rw [hfreed]
  exact mem_singleton_self 4

end Kernel

end Aevros.Proc
