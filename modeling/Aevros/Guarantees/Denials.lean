import Aevros.Library.Runs
import Aevros.Library.Keyed
import Aevros.Office.Patrol

/-! # Denials of the curfew

An address that misbehaved is denied until its window of 200 ticks is over, unless other addresses
take its entry in the table of 64.
-/

namespace Aevros

open Runs CurfewEntry List Curfew Keyed Function Option

def CurfewEntry.key (e : CurfewEntry) : Option Ip4 := tag e.inUse e.ip

namespace Curfew

variable {t : Curfew} {i : Fin curfewCapacity} {now : Word} {ip : Ip4}
  {f : CurfewEntry → CurfewEntry}

/-- The entry was seen before all others, or is the first of those seen before all others. -/
def Oldest (t : Curfew) (i : Fin curfewCapacity) : Prop :=
  ∀ j, (t i).lastSeen ≤ (t j).lastSeen ∧ (j < i → (t i).lastSeen < (t j).lastSeen)

def Evicts (t : Curfew) (ip : Ip4) (i : Fin curfewCapacity) : Prop :=
  (∀ j, (t j).inUse = true ∧ (t j).ip ≠ ip) ∧ t.Oldest i

instance : Decidable (t.Evicts ip i) := inferInstanceAs (Decidable ((∀ _, _) ∧ ∀ _, _))

theorem Oldest.eq {j : Fin curfewCapacity} (hi : t.Oldest i) (hj : t.Oldest j) : i = j := by
  rcases lt_trichotomy i j with hlt | heq | hlt
  · exact absurd ((hj i).2 hlt) (BitVec.not_lt.mpr (hi j).1)
  · exact heq
  · exact absurd ((hi j).2 hlt) (BitVec.not_lt.mpr (hj i).1)

def OldestIn (t : Curfew) (is : List (Fin curfewCapacity)) (i : Fin curfewCapacity) : Prop :=
  i ∈ is ∧ ∀ j ∈ is, (t i).lastSeen ≤ (t j).lastSeen ∧ (j < i → (t i).lastSeen < (t j).lastSeen)

theorem OldestIn.snoc {is : List (Fin curfewCapacity)} {best k : Fin curfewCapacity}
    (h : t.OldestIn is best) (hlt : ∀ j ∈ is, j < k) :
    t.OldestIn (is ++ [k]) (if (t k).lastSeen < (t best).lastSeen then k else best) := by
  unfold OldestIn
  simp only [mem_append, mem_singleton]
  split_ifs with hk
  · refine ⟨.inr rfl, ?_⟩
    rintro j (hj | rfl)
    · have hbest := (h.2 j hj).1
      exact ⟨by bv_omega, fun _ => by bv_omega⟩
    · exact ⟨BitVec.le_refl _, fun hjj => absurd hjj (lt_irrefl _)⟩
  · refine ⟨.inl h.1, ?_⟩
    rintro j (hj | rfl)
    · exact h.2 j hj
    · exact ⟨BitVec.not_lt.mp hk, fun hj => absurd hj (hlt best h.1).asymm⟩

theorem oldest_of_full (hfull : ∀ j, (t j).inUse = true) {past is : List (Fin curfewCapacity)}
    {best : Fin curfewCapacity} (hbest : t.OldestIn past best)
    (hsorted : (past ++ is).Pairwise (· < ·)) :
    ∃ i, t.oldest is (some best) = some i ∧ t.OldestIn (past ++ is) i := by
  induction is generalizing past best with
  | nil => exact ⟨best, rfl, by rwa [append_nil]⟩
  | cons k is ih =>
    have hlt : ∀ j ∈ past, j < k := fun j hj =>
      (pairwise_append.mp hsorted).2.2 j hj k mem_cons_self
    have hstep : t.oldest (k :: is) (some best) =
        t.oldest is (some (if (t k).lastSeen < (t best).lastSeen then k else best)) := by
      rw [oldest]
      split_ifs <;> simp_all
    rw [hstep, append_cons]
    exact ih (hbest.snoc hlt) (by rwa [append_assoc])

theorem target_of_full (hfull : ∀ j, (t j).inUse = true) : t.target = some i ↔ t.Oldest i := by
  obtain ⟨is, his⟩ : ∃ is, finRange curfewCapacity = 0 :: is := ⟨_, finRange_succ⟩
  have hfirst : t.OldestIn [0] 0 := by simp [OldestIn]
  have hcons : [0] ++ is = finRange curfewCapacity := his.symm
  have hsorted : ([0] ++ is).Pairwise (· < ·) := hcons ▸ pairwise_lt_finRange _
  obtain ⟨k, hk, -, hmin⟩ := oldest_of_full hfull hfirst hsorted
  have hold : t.Oldest k := fun j => hmin j (hcons ▸ mem_finRange j)
  have htarget : t.target = some k := by
    have hnone : (Fin.find? fun j => !(t j).inUse) = none := by simp [hfull]
    unfold target
    rw [hnone]
    rw [his, oldest, if_pos (by simp [hfull]), hk]
  rw [htarget, some_inj]
  constructor
  · rintro rfl
    exact hold
  · exact fun h => hold.eq h

theorem target_of_used (hi : (t i).inUse = true) :
    t.target = some i ↔ (∀ j, (t j).inUse = true) ∧ t.Oldest i := by
  constructor
  · intro h
    have hfull : ∀ j, (t j).inUse = true := by
      unfold target at h
      split at h
      · rename_i k hk
        cases h
        have := Fin.eq_true_of_find?_eq_some hk
        simp [hi] at this
      · rename_i hnone
        simpa using Fin.find?_eq_none_iff.mp hnone
    exact ⟨hfull, (target_of_full hfull).mp h⟩
  · rintro ⟨hfull, hold⟩
    exact (target_of_full hfull).mpr hold

theorem find_eq (t : Curfew) (ip : Ip4) :
    (Fin.find? fun i => (t i).inUse && (t i).ip = ip) = find CurfewEntry.key t ip :=
  find_tag CurfewEntry.inUse CurfewEntry.ip t ip

/-- A call for the address: it changes the entry of the address by `f`, a new one if need be. -/
def call (now : Word) (t : Curfew) (ip : Ip4) (f : CurfewEntry → CurfewEntry) : Curfew :=
  match t.findOrCreate now ip with
  | (none, t) => t
  | (some i, t) => update t i (f (t i))

theorem call_of_find (h : find CurfewEntry.key t ip = some i) :
    t.call now ip f = update t i (f (t i)) := by
  unfold call findOrCreate
  rw [find_eq, h]

theorem call_of_target (hnone : ∀ j, (t j).key ≠ some ip) (h : t.target = some i) :
    t.call now ip f = update t i (f ⟨ip, now, 0, now, false, true⟩) := by
  unfold call findOrCreate
  rw [find_eq, find_eq_none_iff.mpr hnone, h]
  simp only [update_self, update_idem]

theorem call_cases (t : Curfew) (now : Word) (ip : Ip4) (hf : ∀ e, (f e).key = e.key) :
    (∃ i x, x.key = some ip ∧ t.call now ip f = update t i x ∧
      ((t i).key = some ip ∨ (∀ j, (t j).key ≠ some ip) ∧ t.target = some i)) ∨
    t.target = none ∧ t.call now ip f = t := by
  cases hfind : find CurfewEntry.key t ip with
  | some i =>
    have hi : (t i).key = some ip := key_of_find hfind
    exact .inl ⟨i, f (t i), (hf _).trans hi, call_of_find hfind, .inl hi⟩
  | none =>
    have hnone := find_eq_none_iff.mp hfind
    cases htarget : t.target with
    | some i => exact .inl ⟨i, _, hf _, call_of_target hnone htarget, .inr ⟨hnone, rfl⟩⟩
    | none =>
      refine .inr ⟨rfl, ?_⟩
      unfold call findOrCreate
      rw [find_eq, hfind, htarget]

section

variable {f : CurfewEntry → CurfewEntry} (hf : ∀ e, (f e).key = e.key) {a : Ip4}
include hf

theorem unique_call (hu : Unique key t) : Unique key (t.call now ip f) := by
  rcases call_cases t now ip hf with ⟨i, x, hx, hc, hi⟩ | ⟨-, hc⟩
  · rw [hc]
    refine hu.update ?_
    rw [hx]
    rintro k ⟨⟩
    exact hi.imp_right And.left
  · rwa [hc]

theorem call_of_not_evicts (hi : (t i).key = some a) (hne : ip ≠ a) (h : ¬ t.Evicts ip i) :
    t.call now ip f i = t i := by
  rcases call_cases t now ip hf with ⟨j, x, -, hc, hj⟩ | ⟨-, hc⟩
  · rw [hc]
    refine update_of_ne ?_ _ _
    rintro rfl
    rcases hj with hj | ⟨hnone, htarget⟩
    · exact hne (some.inj (hj.symm.trans hi))
    · have hused : (t i).inUse = true := (tag_eq_some_iff.mp hi).1
      obtain ⟨hfull, hold⟩ := (target_of_used hused).mp htarget
      refine h ⟨fun k => ⟨hfull k, fun hk => hnone k ?_⟩, hold⟩
      exact tag_eq_some_iff.mpr ⟨hfull k, hk⟩
  · rw [hc]

theorem call_of_evicts (hu : Unique key t) (hi : (t i).key = some a)
    (hne : ip ≠ a) (h : t.Evicts ip i) (j : Fin curfewCapacity) :
    (t.call now ip f j).key ≠ some a := by
  have htarget := (target_of_full fun k => (h.1 k).1).mpr h.2
  rcases call_cases t now ip hf with ⟨k, x, hx, hc, hk⟩ | ⟨hc, -⟩
  · rcases hk with hk | ⟨-, hk⟩
    · exact absurd (tag_eq_some_iff.mp hk).2 (h.1 k).2
    · cases htarget.symm.trans hk
      rw [hc, update_apply]
      split_ifs with hj
      · rw [hx]
        exact fun hip => hne (some.inj hip)
      · exact fun hj' => hj (hu hj' hi)
  · cases htarget.symm.trans hc

theorem call_of_absent (ha : ∀ j, (t j).key ≠ some a) (hne : ip ≠ a) (j : Fin curfewCapacity) :
    (t.call now ip f j).key ≠ some a := by
  rcases call_cases t now ip hf with ⟨i, x, hx, hc, -⟩ | ⟨-, hc⟩
  · rw [hc, update_apply]
    split_ifs
    · rw [hx]
      exact fun h => hne (some.inj h)
    · exact ha j
  · rw [hc]
    exact ha j

end

end Curfew

section

variable (now : Word)

section

variable (e : CurfewEntry)

def CurfewEntry.look : CurfewEntry :=
  Curfew.rollWindow { e with lastSeen := now } now

def CurfewEntry.mark : CurfewEntry :=
  let e := { e.look now with count := (e.look now).count + 1 }
  if curfewThreshold ≤ e.count ∧ !e.denied then { e with denied := true } else e

theorem CurfewEntry.look_key : (e.look now).key = e.key := by
  unfold look Curfew.rollWindow
  split_ifs <;> rfl

theorem CurfewEntry.mark_key : (e.mark now).key = e.key := by
  unfold mark
  dsimp only
  split_ifs <;> exact e.look_key now

end

theorem curfewCheck_snd (t : Curfew) (src : Ip4) :
    (curfewCheck now t src).2 = t.call now src (look now) := by
  unfold curfewCheck Curfew.call
  obtain ⟨_ | i, t'⟩ := t.findOrCreate now src <;> rfl

theorem curfewStrike_eq (t : Curfew) (src : Ip4) :
    curfewStrike now t src = t.call now src (mark now) := by
  obtain ⟨_ | i, t'⟩ := t.findOrCreate now src <;> rfl

end

structure Beat where
  clock : ℕ := 0
  table : Curfew := fun _ => {}

inductive BeatCall
  | check (src : Ip4)
  | strike (src : Ip4)
  | wait (ticks : ℕ)
  deriving DecidableEq

def BeatCall.src : BeatCall → Option Ip4
  | check src => some src
  | strike src => some src
  | wait _ => none

namespace Beat

def now (s : Beat) : Word := BitVec.ofNat 32 s.clock

def step (s : Beat) : BeatCall → Beat
  | .check src => { s with table := (curfewCheck s.now s.table src).2 }
  | .strike src => { s with table := curfewStrike s.now s.table src }
  | .wait ticks => { s with clock := s.clock + ticks }

def Evicts (s : Beat) (e : BeatCall) (i : Fin curfewCapacity) : Prop :=
  ∃ src ∈ e.src, s.table.Evicts src i

variable {s : Beat} {e : BeatCall} {a : Ip4} {i : Fin curfewCapacity}

theorem step_cases (s : Beat) (e : BeatCall) :
    (∃ src f, e.src = some src ∧ (∀ x : CurfewEntry, (f x).key = x.key) ∧
      (s.step e).table = s.table.call s.now src f) ∨
    e.src = none ∧ (s.step e).table = s.table := by
  cases e with
  | check src => exact .inl ⟨src, _, rfl, look_key _, curfewCheck_snd _ _ _⟩
  | strike src => exact .inl ⟨src, _, rfl, mark_key _, curfewStrike_eq _ _ _⟩
  | wait ticks => exact .inr ⟨rfl, rfl⟩

theorem unique_step (hu : Unique key s.table) (e : BeatCall) : Unique key (s.step e).table := by
  rcases s.step_cases e with ⟨src, f, -, hf, hs⟩ | ⟨-, hs⟩
  · rw [hs]
    exact unique_call hf hu
  · rwa [hs]

theorem step_of_not_evicts (hi : (s.table i).key = some a) (hne : e.src ≠ some a)
    (h : ¬ s.Evicts e i) : (s.step e).table i = s.table i := by
  rcases s.step_cases e with ⟨src, f, he, hf, hs⟩ | ⟨-, hs⟩
  · rw [hs]
    exact call_of_not_evicts hf hi (fun h => hne (h ▸ he)) fun hv => h ⟨src, he, hv⟩
  · rw [hs]

theorem step_of_evicts (hu : Unique key s.table) (hi : (s.table i).key = some a)
    (hne : e.src ≠ some a) (h : s.Evicts e i) (j : Fin curfewCapacity) :
    ((s.step e).table j).key ≠ some a := by
  obtain ⟨src, he, hv⟩ := h
  rcases s.step_cases e with ⟨src', f, he', hf, hs⟩ | ⟨he', -⟩
  · cases he.symm.trans he'
    rw [hs]
    exact call_of_evicts hf hu hi (fun h => hne (h ▸ he)) hv j
  · cases he.symm.trans he'

theorem run_of_absent {fs : List BeatCall} (hne : ∀ e ∈ fs, e.src ≠ some a)
    (ha : ∀ j, (s.table j).key ≠ some a) (j : Fin curfewCapacity) :
    ((run step s fs).table j).key ≠ some a := by
  induction fs generalizing s with
  | nil => exact ha j
  | cons e fs ih =>
    refine ih (fun e' he' => hne e' (mem_cons_of_mem _ he')) fun k => ?_
    have hne := hne e mem_cons_self
    rcases s.step_cases e with ⟨src, f, he, hf, hs⟩ | ⟨-, hs⟩
    · rw [hs]
      exact call_of_absent hf ha (fun h => hne (h ▸ he)) k
    · rw [hs]
      exact ha k

theorem run_of_others (hu : Unique key s.table)
    (hi : (s.table i).key = some a) {fs : List BeatCall} (hne : ∀ e ∈ fs, e.src ≠ some a) :
    Along step (fun u e => ¬ u.Evicts e i) s fs ∧ (run step s fs).table i = s.table i ∨
      ¬ Along step (fun u e => ¬ u.Evicts e i) s fs ∧
        ∀ j, ((run step s fs).table j).key ≠ some a := by
  induction fs generalizing s with
  | nil => exact .inl ⟨trivial, rfl⟩
  | cons e fs ih =>
    have hfs : ∀ e' ∈ fs, e'.src ≠ some a := fun e' he' => hne e' (mem_cons_of_mem _ he')
    have he := hne e mem_cons_self
    by_cases hv : s.Evicts e i
    · refine .inr ⟨fun h => h.1 hv, ?_⟩
      rw [run_cons]
      exact run_of_absent hfs (step_of_evicts hu hi he hv)
    · have hkeep := step_of_not_evicts hi he hv
      rcases ih (unique_step hu e) (hkeep ▸ hi) hfs with ⟨hal, hend⟩ | ⟨hal, hend⟩
      · exact .inl ⟨⟨hv, hal⟩, hend.trans hkeep⟩
      · exact .inr ⟨fun h => hal h.2, hend⟩

theorem unique_run (es : List BeatCall) : Unique key (run step {} es).table := by
  refine run_invariant (I := fun s : Beat => Unique key s.table)
    (fun _ e hu => unique_step hu e) ?_ es
  intro i j k hi
  simp [key] at hi

theorem check_of_absent {now : Word} {t : Curfew} (ha : ∀ j, (t j).key ≠ some a) :
    (curfewCheck now t a).1 = true := by
  unfold curfewCheck Curfew.findOrCreate
  rw [find_eq, find_eq_none_iff.mpr ha]
  cases t.target with
  | none => rfl
  | some i => simp [Curfew.rollWindow]

theorem check_of_denied {now : Word} {t : Curfew} (hu : Unique CurfewEntry.key t)
    (hi : (t i).key = some a) (hd : (t i).denied = true)
    (hw : now - (t i).windowStart ≤ curfewWindowTicks) : (curfewCheck now t a).1 = false := by
  unfold curfewCheck Curfew.findOrCreate
  rw [find_eq, hu.find_eq_some_iff.mpr hi]
  simp [Curfew.rollWindow, BitVec.not_lt.mpr hw, hd]

/-- A denied address stays denied within its window exactly if its entry is not evicted. -/
theorem denied_iff_never_evicted (es fs : List BeatCall) (a : Ip4) (i : Fin curfewCapacity) :
    let s := run step {} es
    let t := run step s fs
    (s.table i).inUse = true → (s.table i).ip = a → (s.table i).denied = true →
    (∀ e ∈ fs, e.src ≠ some a) → t.now - (s.table i).windowStart ≤ curfewWindowTicks →
    ((curfewCheck t.now t.table a).1 = false ↔ Along step (fun u e => ¬ u.Evicts e i) s fs) := by
  intro s t hused hip hd hne hw
  have hu := unique_run es
  have hi : (s.table i).key = some a := tag_eq_some_iff.mpr ⟨hused, hip⟩
  rcases run_of_others hu hi hne with ⟨hal, hend⟩ | ⟨hal, hend⟩
  · refine iff_of_true ?_ hal
    have hut := unique_run (es ++ fs)
    rw [run_append] at hut
    exact check_of_denied hut (hend ▸ hi) (hend ▸ hd) (hend ▸ hw)
  · refine iff_of_false ?_ hal
    rw [check_of_absent hend]
    exact Bool.noConfusion

def struck (a : Ip4) (n : ℕ) : Curfew :=
  update (fun _ => {}) 0 ⟨a, 0, BitVec.ofNat 32 n, 0, decide (150 ≤ n), true⟩

theorem run_eq {s : Beat} {calls : List BeatCall} {t : Curfew}
    (hclock : (run step s calls).clock = 0) (ht : (run step s calls).table = t) :
    run step s calls = { table := t } :=
  congrArg₂ Beat.mk hclock ht

theorem run_strikes : run step {} (List.replicate 150 (.strike ⟨10, 0, 2, 2⟩)) =
    { table := struck ⟨10, 0, 2, 2⟩ 150 } := by
  have h₁ : run step {} (List.replicate 50 (.strike ⟨10, 0, 2, 2⟩)) =
      { table := struck ⟨10, 0, 2, 2⟩ 50 } := run_eq (by decide +kernel) (by decide +kernel)
  have h₂ : run step { table := struck ⟨10, 0, 2, 2⟩ 50 }
      (List.replicate 50 (.strike ⟨10, 0, 2, 2⟩)) = { table := struck ⟨10, 0, 2, 2⟩ 100 } :=
    run_eq (by decide +kernel) (by decide +kernel)
  have h₃ : run step { table := struck ⟨10, 0, 2, 2⟩ 100 }
      (List.replicate 50 (.strike ⟨10, 0, 2, 2⟩)) = { table := struck ⟨10, 0, 2, 2⟩ 150 } :=
    run_eq (by decide +kernel) (by decide +kernel)
  rw [show 150 = 50 + 50 + 50 by rfl, ← replicate_append_replicate,
    ← replicate_append_replicate, run_append, run_append, h₁, h₂, h₃]

def crowded (a : Ip4) (n : ℕ) : Curfew := fun j =>
  if j = 0 then ⟨a, 0, 150, 0, true, true⟩
  else if (j : ℕ) ≤ n then ⟨⟨10, 0, 3, BitVec.ofNat 8 j⟩, 0, 0, 0, false, true⟩
  else {}

def crowd (n : ℕ) : List BeatCall :=
  (List.range n).map fun k => .check ⟨10, 0, 3, BitVec.ofNat 8 (k + 1)⟩

theorem denial_lifted_by_others :
    let s := run step {} (List.replicate 150 (.strike ⟨10, 0, 2, 2⟩))
    let t := run step s (crowd 64)
    (curfewCheck s.now s.table ⟨10, 0, 2, 2⟩).1 = false ∧ t.clock = s.clock ∧
      (curfewCheck t.now t.table ⟨10, 0, 2, 2⟩).1 = true := by
  have hhalf : run step { table := struck ⟨10, 0, 2, 2⟩ 150 } (crowd 32) =
      { table := crowded ⟨10, 0, 2, 2⟩ 32 } := run_eq (by decide +kernel) (by decide +kernel)
  have hcrowd : crowd 64 = crowd 32 ++ (crowd 64).drop 32 := by decide +kernel
  rw [run_strikes, hcrowd]
  dsimp only
  rw [run_append, hhalf]
  exact ⟨by decide +kernel, by decide +kernel, by decide +kernel⟩

theorem denied_after_one_check :
    let s := run step {} (List.replicate 150 (.strike ⟨10, 0, 2, 2⟩))
    let t := run step s [.check ⟨10, 0, 2, 3⟩]
    (curfewCheck t.now t.table ⟨10, 0, 2, 2⟩).1 = false := by
  have hstruck := run_strikes
  refine (denied_iff_never_evicted _ _ _ 0 ?_ ?_ ?_ ?_ ?_).mpr ?_
  · rw [hstruck]
    rfl
  · rw [hstruck]
    rfl
  · rw [hstruck]
    rfl
  · simp [BeatCall.src]
  · rw [hstruck]
    decide +kernel
  · rw [hstruck]
    refine ⟨?_, trivial⟩
    rintro ⟨src, -, hfull, -⟩
    exact absurd (hfull 1).1 (by decide)

end Beat

end Aevros
