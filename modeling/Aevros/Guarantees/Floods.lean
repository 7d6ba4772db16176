import Aevros.Library.FirstCome
import Aevros.Library.Keyed
import Aevros.Library.Runs
import Aevros.Library.Wrap
import Aevros.Office.Patrol

/-! # Floods

A hardware address that strikes 4000 times within 200 ticks is flagged, if it is among the first 16
addresses that strike.
-/

namespace Aevros

open Runs WatchEntry List Keyed WatchList Function

def WatchEntry.key (e : WatchEntry) : Option Mac := tag e.inUse e.mac

namespace WatchList

variable {t : WatchList} {now : Word} {x y : Mac}

section

variable (t : WatchList)

def entry (mac : Mac) : Option WatchEntry := get key t mac

theorem findEntry_eq (mac : Mac) : t.findEntry mac = find WatchEntry.key t mac :=
  find_tag WatchEntry.inUse WatchEntry.mac t mac

theorem free_eq : (Fin.find? fun i => !(t i).inUse) = free key t :=
  free_tag inUse mac t

theorem strike_key (now : Word) (e : WatchEntry) : (strike now e).key = e.key := by
  unfold strike
  dsimp only
  split_ifs <;> rfl

theorem query_key (now : Word) (e : WatchEntry) : (query now e).key = e.key := by
  unfold query
  split_ifs <;> rfl

def opened (now : Word) (mac : Mac) : WatchEntry :=
  (t.entry mac).getD ⟨mac, now, 0, false, true⟩

end

theorem watchlistStrike_snd :
    (watchlistStrike now t x).2 = match Keyed.place WatchEntry.key t x with
      | some i => update t i (strike now (t.opened now x))
      | none => t := by
  unfold watchlistStrike findOrCreate Keyed.place opened entry Keyed.get
  rw [findEntry_eq, free_eq]
  cases find WatchEntry.key t x with
  | some i => rfl
  | none =>
    cases free WatchEntry.key t with
    | some i =>
      simp only [update_self, update_idem]
      rfl
    | none => rfl

section

variable (hu : Unique key t)
include hu

theorem opened_key (now : Word) (x : Mac) : (t.opened now x).key = some x := by
  unfold opened
  cases h : t.entry x with
  | none => rfl
  | some e =>
    obtain ⟨i, -, hkey⟩ := hu.get_eq_some_iff.mp h
    exact hkey

theorem strike_spec (now : Word) (x : Mac) : Unique key (watchlistStrike now t x).2 ∧
    keys key (watchlistStrike now t x).2 = FirstCome.offer watchlistCapacity (keys key t) x ∧
    ∀ y, (watchlistStrike now t x).2.entry y =
      if y = x ∧ (Keyed.place key t x).isSome then some (strike now (t.opened now x))
      else t.entry y := by
  have hx : (strike now (t.opened now x)).key = some x :=
    (strike_key _ _).trans (opened_key hu now x)
  have hroom := hu.isSome_place_iff (k := x)
  rw [watchlistStrike_snd, FirstCome.offer]
  cases hp : Keyed.place key t x with
  | some i =>
    rw [hp] at hroom
    refine ⟨hu.write hp hx, ?_, fun y => ?_⟩
    · rw [if_pos (hroom.mp rfl)]
      exact hu.keys_write hp hx
    · simpa [entry] using hu.get_write hp hx y
  | none =>
    rw [hp] at hroom
    refine ⟨hu, ?_, fun y => ?_⟩
    · rw [if_neg fun h => Bool.noConfusion (hroom.mpr h)]
    · simp

theorem query_spec (now : Word) (x : Mac) : Unique key (watchlistIsFlagged now t x).2 ∧
    keys key (watchlistIsFlagged now t x).2 = keys key t ∧
    ∀ y, (watchlistIsFlagged now t x).2.entry y =
      if y = x then (t.entry x).map (query now) else t.entry y := by
  unfold watchlistIsFlagged
  rw [findEntry_eq]
  cases hf : find key t x with
  | some i =>
    have hi : (t i).key = some x := key_of_find hf
    have hx : (query now (t i)).key = some x := (query_key _ _).trans hi
    have hp : Keyed.place key t x = some i := by rw [Keyed.place, hf]
    refine ⟨hu.write hp hx, ?_, fun y => ?_⟩
    · refine (hu.keys_write hp hx).trans (Finset.insert_eq_of_mem ?_)
      exact mem_keys.mpr ⟨i, hi⟩
    · have hentry : t.entry x = some (t i) := by rw [entry, Keyed.get, hf]; rfl
      rw [hentry]
      exact hu.get_write hp hx y
  | none =>
    refine ⟨hu, rfl, fun y => ?_⟩
    split_ifs with hy
    · rw [hy, entry, Keyed.get, hf]
      rfl
    · rfl

end

theorem watchlistIsFlagged_fst : (watchlistIsFlagged now t x).1 =
      ((t.entry x).map fun e => (query now e).flagged).getD false := by
  unfold watchlistIsFlagged entry Keyed.get
  rw [findEntry_eq]
  cases find WatchEntry.key t x <;> rfl

variable {e : WatchEntry} {m : Mac}

def Over (now : Word) (e : WatchEntry) : Prop := watchWindowTicks < now - e.windowStart

theorem strike_of_over (h : Over now e) :
    strike now e = { e with windowStart := now, count := 1, flagged := false } := by
  unfold Over at h
  unfold strike
  rw [if_pos h]
  exact if_neg (show ¬ watchThreshold ≤ 0 + 1 by decide)

theorem strike_of_not_over (h : ¬ Over now e) : strike now e = { e with
      count := e.count + 1, flagged := decide (watchThreshold ≤ e.count + 1) || e.flagged } := by
  unfold Over at h
  unfold strike
  dsimp only
  split_ifs with hc
  · rw [decide_eq_true hc, Bool.true_or]
  · rw [decide_eq_false hc, Bool.false_or]

theorem query_of_not_over (h : ¬ Over now e) : query now e = e := if_neg h

theorem strike_opened (h : ∀ e ∈ t.entry x, Over now e) :
    ∃ e : WatchEntry, strike now (t.opened now x) =
      { e with windowStart := now, count := 1, flagged := false } := by
  unfold opened
  cases hx : t.entry x with
  | some e => exact ⟨e, strike_of_over (h e hx)⟩
  | none =>
    refine ⟨⟨x, now, 0, false, true⟩, ?_⟩
    rw [strike_of_not_over (by simp [Over])]
    rfl

end WatchList

structure Lookout where
  clock : ℕ := 0
  list : WatchList := fun _ => {}
  struck : List Mac := []

inductive LookoutCall
  | strike (src : Mac)
  | query (src : Mac)
  | wait (ticks : ℕ)
  deriving DecidableEq

def LookoutCall.ticks : LookoutCall → ℕ
  | wait ticks => ticks
  | _ => 0

def LookoutCall.striker : LookoutCall → Option Mac
  | strike src => some src
  | _ => none

namespace Lookout

section

variable (s : Lookout)

def now : Word := BitVec.ofNat 32 s.clock

def step : LookoutCall → Lookout
  | .strike src =>
    { s with list := (watchlistStrike s.now s.list src).2, struck := s.struck ++ [src] }
  | .query src => { s with list := (watchlistIsFlagged s.now s.list src).2 }
  | .wait ticks => { s with clock := s.clock + ticks }

variable (fs : List LookoutCall)

theorem clock_run : (run step s fs).clock = s.clock + (fs.map LookoutCall.ticks).sum := by
  induction fs generalizing s with
  | nil => rfl
  | cons e fs ih =>
    rw [run_cons, ih, map_cons, sum_cons, ← Nat.add_assoc]
    cases e <;> rfl

theorem clock_le_run : s.clock ≤ (run step s fs).clock := by
  rw [clock_run]
  exact Nat.le_add_right _ _

theorem struck_run : (run step s fs).struck = s.struck ++ fs.filterMap LookoutCall.striker := by
  induction fs generalizing s with
  | nil => simp
  | cons e fs ih =>
    rw [run_cons, ih]
    cases e <;> simp [step, LookoutCall.striker, filterMap_cons]

end

structure Inv (s : Lookout) : Prop where
  unique : Unique key s.list
  served : FirstCome.Served watchlistCapacity (keys key s.list) s.struck

section

variable {s : Lookout}

theorem Inv.step (h : s.Inv) (e : LookoutCall) : (s.step e).Inv := by
  cases e with
  | strike src =>
    obtain ⟨hu, hkeys, -⟩ := strike_spec h.unique s.now src
    refine ⟨hu, ?_⟩
    show FirstCome.Served _ (keys _ (watchlistStrike s.now s.list src).2) _
    rw [hkeys]
    exact h.served.offer src
  | query src =>
    obtain ⟨hu, hkeys, -⟩ := query_spec h.unique s.now src
    refine ⟨hu, ?_⟩
    show FirstCome.Served _ (keys _ (watchlistIsFlagged s.now s.list src).2) _
    rw [hkeys]
    exact h.served
  | wait ticks => exact ⟨h.unique, h.served⟩

theorem inv_run (es : List LookoutCall) : Inv (run step {} es) := by
  refine run_invariant (fun _ e h => h.step e) ⟨fun i j k hi => ?_, ?_⟩ es
  · simp [key] at hi
  · exact .nil

/-- The address has a window that began in tick `start`, with `n` strikes so far. -/
def Counts (s : Lookout) (m : Mac) (start n : ℕ) : Prop :=
  ∃ e, s.list.entry m = some e ∧ e.windowStart = BitVec.ofNat 32 start ∧
    e.count = BitVec.ofNat 32 n ∧ e.flagged = decide (4000 ≤ n)

theorem not_over {start : ℕ} {e : WatchEntry} (hle : start ≤ s.clock)
    (hlt : s.clock ≤ start + 200) (he : e.windowStart = BitVec.ofNat 32 start) :
    ¬ WatchList.Over s.now e := by
  unfold WatchList.Over
  rw [he, BitVec.not_lt]
  refine (Wrap.toNat_ofNat_sub_le hle).trans ?_
  show s.clock - start ≤ 200
  omega

theorem flagged_succ (n : ℕ) :
    (decide (watchThreshold ≤ BitVec.ofNat 32 (n + 1)) || decide (4000 ≤ n)) =
      decide (4000 ≤ n + 1) := by
  by_cases hn : 4000 ≤ n
  · simp [hn, Nat.le_succ_of_le hn]
  · have hle : watchThreshold ≤ BitVec.ofNat 32 (n + 1) ↔ 4000 ≤ n + 1 := by
      rw [BitVec.le_def, BitVec.toNat_ofNat, Nat.mod_eq_of_lt (by omega)]
      rfl
    simp [hle, hn]

theorem Counts.step {start n : ℕ} (hc : s.Counts m start n) (h : s.Inv)
    (hle : start ≤ s.clock) (hlt : s.clock ≤ start + 200) (c : LookoutCall) :
    (s.step c).Counts m start (n + [c].count (.strike m)) := by
  obtain ⟨e, he, hstart, hcount, hflag⟩ := hc
  have hover := not_over hle hlt hstart
  cases c with
  | strike src =>
    obtain ⟨-, -, hentry⟩ := strike_spec h.unique s.now src
    by_cases hm : src = m
    · subst hm
      have hplace : (Keyed.place key s.list src).isSome :=
        h.unique.isSome_place_iff.mpr (.inl (isSome_get_iff.mp (by
          rw [show get _ _ _ = some e from he]; rfl)))
      have hopened : s.list.opened s.now src = e := by rw [WatchList.opened, he]; rfl
      refine ⟨_, (hentry src).trans (if_pos ⟨rfl, hplace⟩), ?_⟩
      rw [hopened, strike_of_not_over hover, count_singleton_self]
      rw [hcount, hflag, show (1 : Word) = BitVec.ofNat 32 1 from rfl, ← BitVec.ofNat_add]
      exact ⟨hstart, rfl, flagged_succ n⟩
    · refine ⟨e, (hentry m).trans ((if_neg fun hc => hm hc.1.symm).trans he), hstart, ?_⟩
      rw [count_singleton, if_neg (by simpa using hm)]
      exact ⟨hcount, hflag⟩
  | query src =>
    obtain ⟨-, -, hentry⟩ := query_spec h.unique s.now src
    refine ⟨e, (hentry m).trans ?_, hstart, hcount, hflag⟩
    split_ifs with hm
    · rw [← hm, he, Option.map_some, query_of_not_over hover]
    · exact he
  | wait ticks => exact ⟨e, he, hstart, hcount, hflag⟩

theorem Counts.run {start n : ℕ} (hc : s.Counts m start n) (h : s.Inv)
    (hle : start ≤ s.clock) {fs : List LookoutCall}
    (hlt : (run Lookout.step s fs).clock ≤ start + 200) :
    (run Lookout.step s fs).Counts m start (n + fs.count (.strike m)) := by
  induction fs generalizing s n with
  | nil => exact hc
  | cons c fs ih =>
    have hstep : s.clock ≤ (s.step c).clock := clock_le_run s [c]
    have hend := clock_le_run s (c :: fs)
    have hcount : n + (c :: fs).count (.strike m) =
        n + [c].count (.strike m) + fs.count (.strike m) := by
      rw [Nat.add_assoc, ← count_append]
      rfl
    rw [hcount]
    exact ih (hc.step h hle (hend.trans hlt) c) (h.step c) (hle.trans hstep) hlt

theorem Counts.isFlagged {start n : ℕ} (hc : s.Counts m start n)
    (hle : start ≤ s.clock) (hlt : s.clock ≤ start + 200) :
    (watchlistIsFlagged s.now s.list m).1 = decide (4000 ≤ n) := by
  obtain ⟨e, he, hstart, -, hflag⟩ := hc
  rw [watchlistIsFlagged_fst, he, Option.map_some, Option.getD_some,
    query_of_not_over (not_over hle hlt hstart), hflag]

theorem Inv.isFlagged_of_crowded (h : s.Inv)
    (hm : ¬ (FirstCome.before m s.struck).card < watchlistCapacity) :
    (watchlistIsFlagged s.now s.list m).1 = false := by
  have hkeys : m ∉ keys key s.list := fun hk => hm ((h.served.mem_iff m).mp hk).2
  have hnone : s.list.entry m = none := by
    rw [WatchList.entry, ← Option.not_isSome_iff_eq_none, isSome_get_iff]
    exact hkeys
  rw [watchlistIsFlagged_fst, hnone]
  rfl

theorem Inv.counts_of_opening (h : s.Inv)
    (hm : (FirstCome.before m s.struck).card < watchlistCapacity)
    (ho : ∀ e ∈ s.list.entry m, WatchList.Over s.now e) :
    (s.step (.strike m)).Counts m s.clock 1 := by
  obtain ⟨-, -, hentry⟩ := strike_spec h.unique s.now m
  obtain ⟨e, he⟩ := strike_opened ho
  have hplace : (Keyed.place key s.list m).isSome :=
    h.unique.isSome_place_iff.mpr ((h.served.room_iff m).mpr hm)
  refine ⟨_, (hentry m).trans (if_pos ⟨rfl, hplace⟩), ?_⟩
  rw [he]
  exact ⟨rfl, rfl, rfl⟩

end

/-- An address is flagged in its window exactly if it struck 4000 times before 16 others did. -/
theorem flagged_iff_watched (es fs : List LookoutCall) (m : Mac) :
    let s := run step {} es
    let t := run step s (.strike m :: fs)
    (∀ e ∈ s.list.entry m, WatchList.Over s.now e) → t.clock ≤ s.clock + 200 →
    ((watchlistIsFlagged t.now t.list m).1 = true ↔
      4000 ≤ (LookoutCall.strike m :: fs).count (.strike m) ∧
        (FirstCome.before m s.struck).card < watchlistCapacity) := by
  intro s t ho hlt
  have hs : s.Inv := inv_run es
  by_cases hm : (FirstCome.before m s.struck).card < watchlistCapacity
  · have hopen := hs.counts_of_opening hm ho
    have hend : t.Counts m s.clock ((LookoutCall.strike m :: fs).count (.strike m)) := by
      rw [count_cons_self, Nat.add_comm]
      exact hopen.run (hs.step _) le_rfl hlt
    rw [hend.isFlagged (clock_le_run s _) hlt, decide_eq_true_eq, and_iff_left hm]
  · have ht : t.Inv := run_invariant (fun _ e h => h.step e) hs _
    have hbefore : FirstCome.before m t.struck = FirstCome.before m s.struck := by
      rw [struck_run]
      exact FirstCome.before_append_cons m _ _
    rw [ht.isFlagged_of_crowded (hbefore ▸ hm)]
    exact iff_of_false Bool.noConfusion fun hc => hm hc.2

theorem clock_run_strikes (s : Lookout) (m : Mac) (n : ℕ) :
    (run step s (replicate n (.strike m))).clock = s.clock := by
  rw [clock_run, map_replicate, sum_replicate]
  exact congrArg (s.clock + ·) (smul_zero n)

theorem flagged_after_4000_strikes :
    let t := run step {} (replicate 4000 (.strike ⟨2, 0, 0, 0, 0, 1⟩))
    (watchlistIsFlagged t.now t.list ⟨2, 0, 0, 0, 0, 1⟩).1 = true := by
  have hboot : WatchList.entry (fun _ => {}) ⟨2, 0, 0, 0, 0, 1⟩ = none :=
    get_eq_none_iff.mpr fun i => by simp [key]
  have hcount : (replicate (3999 + 1) (LookoutCall.strike ⟨2, 0, 0, 0, 0, 1⟩)).count
      (.strike ⟨2, 0, 0, 0, 0, 1⟩) = 3999 + 1 := count_replicate_self
  have hclock := clock_run_strikes {} ⟨2, 0, 0, 0, 0, 1⟩ (3999 + 1)
  refine (flagged_iff_watched [] (replicate 3999 _) _ ?_ ?_).mpr ⟨hcount.ge, by decide⟩
  · intro e he
    cases hboot.symm.trans he
  · exact hclock.trans_le (Nat.zero_le _)

theorem unwatched_after_others {others : List Mac} (hm : m ∉ others)
    (hcard : watchlistCapacity ≤ others.toFinset.card) (n : ℕ) :
    let s := run step {} (others.map .strike)
    let t := run step s (replicate n (.strike m))
    t.clock = 0 ∧ (watchlistIsFlagged t.now t.list m).1 = false := by
  intro s t
  have hticks : (others.map LookoutCall.strike).map LookoutCall.ticks = others.map fun _ => 0 := by
    rw [map_map]
    rfl
  have hclock : s.clock = 0 := by
    rw [clock_run, hticks, map_const', sum_replicate]
    rfl
  have hstruck : t.struck = others ++ replicate n m := by
    have hs : s.struck = others := by
      rw [struck_run, filterMap_map]
      exact filterMap_some
    rw [struck_run, filterMap_replicate, hs]
    rfl
  have hbefore : FirstCome.before m (others ++ replicate n m) = others.toFinset := by
    rw [← FirstCome.before_of_notMem hm]
    cases n with
    | zero => rw [replicate_zero, append_nil]
    | succ n => rw [replicate_succ, FirstCome.before_append_cons]
  refine ⟨(clock_run_strikes s m n).trans hclock, Inv.isFlagged_of_crowded ?_ ?_⟩
  · exact run_invariant (fun _ e h => h.step e) (inv_run _) _
  · rw [hstruck, hbefore]
    exact Nat.not_lt.mpr hcard

theorem unwatched_after_16_others :
    let others := (range 16).map fun k => ⟨2, 0, 0, 0, 1, BitVec.ofNat 8 k⟩
    let s := run step {} (others.map .strike)
    let t := run step s (replicate 4000 (.strike ⟨2, 0, 0, 0, 0, 1⟩))
    t.clock = 0 ∧ (watchlistIsFlagged t.now t.list ⟨2, 0, 0, 0, 0, 1⟩).1 = false :=
  unwatched_after_others (by decide) (by decide) 4000

end Lookout

end Aevros
