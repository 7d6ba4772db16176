import Aevros.Library.Recent
import Aevros.Library.Runs
import Aevros.Observe.Observer

/-! # What the observer does with every frame

Every captured frame is dropped, queued, recorded, rejected or not known, as the counters say, and
the decoders read bytes of the frame only.
-/

namespace Aevros

open List Observation Reads Observe Runs

namespace Observe

variable {d : ℕ → Byte} {n i : ℕ}

theorem within_be16 (h : i + 2 ≤ n) : Within d n (be16 i) := by
  simp only [be16, within_bind, within_cell, within_pure, and_true]
  omega

theorem within_beIpv4 (h : i + 4 ≤ n) : Within d n (beIpv4 i) := by
  simp only [beIpv4, within_bind, within_cell, within_pure, and_true]
  omega

theorem within_hashFrom {k : ℕ} {h : Word} (hn : i + k ≤ n) : Within d n (hashFrom i k h) := by
  induction k generalizing i h with
  | zero => exact within_pure h
  | succ k ih =>
    rw [hashFrom, within_bind, within_cell]
    exact ⟨by omega, ih (by omega)⟩

theorem within_orElse {x y : Reads Byte Bool} (hx : Within d n x) (hy : Within d n y) :
    Within d n (orElse x y) := by
  rw [orElse, within_bind]
  exact ⟨hx, within_ite (fun _ => within_pure _) fun _ => hy⟩

theorem within_test {α : Type} {x : Reads Byte α} {p : α → Bool} (hx : Within d n x) :
    Within d n (do return p (← x)) :=
  within_bind.mpr ⟨hx, within_pure _⟩

section

variable (length caplen : ℕ)

theorem within_observeArp : Within d caplen (observeArp length caplen) := by
  refine within_ite (fun _ => within_pure _) fun h => ?_
  have hlen : 42 ≤ caplen := Nat.le_of_not_lt fun hlt => h (.inr hlt)
  refine within_bind.mpr ⟨?_, within_ite (fun _ => within_pure _) fun _ => ?_⟩
  · exact within_orElse (within_test (within_be16 (by omega))) <|
      within_orElse (within_test (within_be16 (by omega))) <|
      within_orElse (within_test (within_cell.mpr (by omega)))
        (within_test (within_cell.mpr (by omega)))
  · simp only [within_bind, within_pure, and_true]
    exact ⟨within_beIpv4 (by omega), within_beIpv4 (by omega)⟩

theorem within_observeTransport {length caplen l4 l4Len : ℕ} {proto : Byte} {src dst : Word}
    {fragmentOffset : Port} :
    Within d caplen (observeTransport length caplen l4 l4Len proto src dst fragmentOffset) := by
  refine within_ite (fun _ => ?_) fun _ =>
    within_ite (fun _ => within_pure _) fun _ => within_pure _
  refine within_ite (fun _ => within_pure _) fun _ =>
    within_ite (fun _ => within_pure _) fun h => ?_
  simp only [within_bind]
  exact ⟨within_be16 (by omega), within_be16 (by omega),
    within_ite (fun _ => within_pure _) fun _ => within_pure _⟩

theorem within_observeIpv4 : Within d caplen (observeIpv4 length caplen) := by
  refine within_ite (fun _ => within_pure _) fun h => ?_
  have hlen : 34 ≤ caplen := Nat.le_of_not_lt fun hlt => h (.inr hlt)
  refine within_bind.mpr ⟨within_cell.mpr (by omega), ?_⟩
  refine within_ite (fun _ => within_pure _) fun _ => within_ite (fun _ => within_pure _) fun _ =>
    within_ite (fun _ => within_pure _) fun _ => ?_
  refine within_bind.mpr ⟨within_be16 (by omega), within_ite (fun _ => within_pure _) fun _ => ?_⟩
  simp only [within_bind, within_cell]
  exact ⟨by omega, within_beIpv4 (by omega), within_beIpv4 (by omega), within_be16 (by omega),
    within_observeTransport⟩

theorem within_observeIpv6 : Within d caplen (observeIpv6 length caplen) := by
  refine within_ite (fun _ => within_pure _) fun h => ?_
  have hlen : 54 ≤ caplen := Nat.le_of_not_lt fun hlt => h (.inr hlt)
  refine within_bind.mpr ⟨within_cell.mpr (by omega),
    within_ite (fun _ => within_pure _) fun _ => ?_⟩
  refine within_bind.mpr ⟨within_be16 (by omega), within_ite (fun _ => within_pure _) fun _ => ?_⟩
  simp only [within_bind, within_cell]
  refine ⟨by omega, within_hashFrom (by omega), ?_, ?_⟩
  · rw [destIpv6, within_bind, within_cell]
    exact ⟨by omega, within_ite (fun _ => within_pure _) fun _ => within_hashFrom (by omega)⟩
  · refine within_ite (fun hports => ?_) fun _ => within_pure _
    have hlen' : 58 ≤ caplen := hports.2.2
    simp only [within_bind, within_pure, and_true]
    exact ⟨within_be16 (show 14 + 40 + 2 ≤ _ by omega), within_be16 (show 14 + 42 + 2 ≤ _ by omega)⟩

end

theorem within_observe (d : ℕ → Byte) (length caplen : ℕ) :
    Within d caplen (observe length caplen) := by
  refine within_ite (fun _ => within_pure _) fun h => ?_
  have hlen : 14 ≤ caplen := Nat.le_of_not_lt fun hlt => h (.inr hlt)
  refine within_bind.mpr ⟨within_be16 (by omega), ?_⟩
  refine within_ite (fun _ => within_observeArp _ _) fun _ => ?_
  refine within_ite (fun _ => within_observeIpv4 _ _) fun _ => ?_
  exact within_ite (fun _ => within_observeIpv6 _ _) fun _ => within_pure _

end Observe

structure Arrival where
  direction : NetwatchDirection
  frame : Frame

namespace Arrival

variable (a : Arrival)

def caplen : ℕ := min a.frame.length netobserveCaptureBytes

def verdict : Verdict :=
  (observe a.frame.length a.caplen).run fun i => a.frame.getD i 0

def sighting : Option (NetwatchDirection × Sighting) :=
  match a.verdict with
  | .recorded s => some (a.direction, s)
  | _ => none

end Arrival

namespace Capture

structure Of (c : Capture) (a : Arrival) : Prop where
  direction : c.direction = a.direction
  length : c.length = a.frame.length
  caplen : c.caplen = a.caplen
  bytes : ∀ i < c.caplen, a.frame[i]? = some (c.byte i)

theorem of_fill (c : Capture) (direction : NetwatchDirection) (frame : Frame) :
    (c.fill direction frame).Of ⟨direction, frame⟩ := by
  have hcap : (c.fill direction frame).caplen = min frame.length netobserveCaptureBytes := by
    dsimp only [fill]
    split_ifs <;> omega
  refine ⟨rfl, rfl, hcap, fun i hi => ?_⟩
  have hlt : i < min frame.length netobserveCaptureBytes := hcap ▸ hi
  have hbyte : (c.fill direction frame).byte i = frame.getD i 0 := by
    unfold byte
    rw [dif_pos (hlt.trans_le (Nat.min_le_right _ _))]
    exact if_pos hi
  have hlen : i < frame.length := hlt.trans_le (Nat.min_le_left _ _)
  simp [hbyte, hlen]

theorem Of.verdict_eq {c : Capture} {a : Arrival} (h : c.Of a) :
    (observe c.length c.caplen).run c.byte = a.verdict := by
  have hread : ∀ i ∈ (observe c.length c.caplen).log c.byte, c.byte i = a.frame.getD i 0 := by
    intro i hi
    have hbyte := h.bytes i (within_observe _ _ _ i hi)
    rw [getD_eq_getElem?_getD, hbyte, Option.getD_some]
  rw [Arrival.verdict, ← h.length, ← h.caplen]
  exact (run_congr hread).1

end Capture

namespace Verdict

def isRecorded : Verdict → Bool
  | .recorded _ => true
  | _ => false

def isMalformed : Verdict → Bool
  | .malformed _ => true
  | _ => false

def isUnknown : Verdict → Bool
  | .unknown => true
  | _ => false

end Verdict

theorem length_eq_countP_verdict (as : List Arrival) :
    as.length = as.countP (·.verdict.isRecorded) + as.countP (·.verdict.isMalformed) +
      as.countP (·.verdict.isUnknown) := by
  induction as with
  | nil => rfl
  | cons a as ih =>
    cases hv : a.verdict <;>
      simp [hv, Verdict.isRecorded, Verdict.isMalformed, Verdict.isUnknown, ih] <;>
      omega

def NetwatchEvent.sighting (e : NetwatchEvent) : NetwatchDirection × Sighting :=
  (e.direction, ⟨e.protocol, e.length, e.srcIp, e.dstIp, e.srcPort, e.dstPort⟩)

def NetObserve.queued (o : NetObserve) : List Capture :=
  (Ring.read netobserveQueueSlots o.queue o.tail o.count).1

def NetObserve.enqueue (o : NetObserve) (c : Capture) : NetObserve :=
  { o with
    queue := Function.update o.queue o.head c
    head := (o.head + 1) % netobserveQueueSlots
    count := o.count + 1
    stats := { o.stats with captured := o.stats.captured + 1 } }

def NetObserve.overflow (o : NetObserve) : NetObserve :=
  { o with stats :=
    { o.stats with captured := o.stats.captured + 1, dropped := o.stats.dropped + 1 } }

theorem NetObserve.queued_enqueue {o : NetObserve} {c : Capture}
    (htail : o.tail < netobserveQueueSlots)
    (hhead : o.head = (o.tail + o.count) % netobserveQueueSlots)
    (hroom : o.count < netobserveQueueSlots) : (o.enqueue c).queued = o.queued ++ [c] := by
  have hwrite := Ring.read_write o.queue (n := o.count) htail [c] hroom
  rwa [← hhead] at hwrite

theorem countP_singleton_toNat {α : Type*} (p : α → Bool) (a : α) : [a].countP p = (p a).toNat := by
  cases h : p a <;> simp [h]

namespace Observation

variable (now : Word) (direction : NetwatchDirection) (v : Verdict) (s : Observation)

theorem observer_conclude : ∃ reason, (s.conclude now direction v).observer =
    { s.observer with stats := { s.observer.stats with
      recorded := s.observer.stats.recorded + BitVec.ofNat 32 v.isRecorded.toNat
      malformed := s.observer.stats.malformed + BitVec.ofNat 32 v.isMalformed.toNat
      unknown := s.observer.stats.unknown + BitVec.ofNat 32 v.isUnknown.toNat
      lastMalformedReason := reason } } := by
  cases v
  all_goals
    simp only [conclude, Verdict.isRecorded, Verdict.isMalformed, Verdict.isUnknown,
      Bool.toNat_true, Bool.toNat_false, BitVec.add_zero]
    exact ⟨_, rfl⟩

theorem events_conclude {s : Observation} (a : Arrival) {seen : List (NetwatchDirection × Sighting)}
    (h : s.watch.events.map NetwatchEvent.sighting = seen.rtake netwatchMaxEvents) :
    (s.conclude now a.direction a.verdict).watch.events.map NetwatchEvent.sighting =
      (seen ++ [a].filterMap Arrival.sighting).rtake netwatchMaxEvents := by
  cases hv : a.verdict with
  | recorded x =>
    have hsight : [a].filterMap Arrival.sighting = [(a.direction, x)] := by
      simp [Arrival.sighting, hv]
    rw [hsight, Recent.rtake_append_singleton (by decide), ← h]
    simp only [conclude, netwatchEvent, NetWatch.recordEvent, map_append, NetWatch.kept,
      length_map, apply_ite (map NetwatchEvent.sighting), map_drop]
    rfl
  | malformed reason =>
    have hsight : [a].filterMap Arrival.sighting = [] := by simp [Arrival.sighting, hv]
    rw [hsight, append_nil, ← h]
    rfl
  | unknown =>
    have hsight : [a].filterMap Arrival.sighting = [] := by simp [Arrival.sighting, hv]
    rw [hsight, append_nil, ← h]
    rfl

end Observation

structure Watching where
  state : Observation
  frames : List Arrival := []
  total : ℕ := 0

inductive ObserverCall
  | capture (direction : NetwatchDirection) (frame : Option Frame)
  | round (now : Word)
  | drain (ticks : ℕ → Word)

def ObserverCall.arrival : ObserverCall → Option Arrival
  | .capture direction (some frame) => if frame = [] then none else some ⟨direction, frame⟩
  | _ => none

namespace Watching

def step (x : Watching) (c : ObserverCall) : Watching where
  state := match c with
    | .capture direction frame =>
      { x.state with observer := netobserveCapture direction frame x.state.observer }
    | .round now => (x.state.drainRound now).getD x.state
    | .drain ticks => (netobserveDrain ticks x.state).2
  frames := match c.arrival with
    | some a => if x.state.observer.count < netobserveQueueSlots then x.frames ++ [a] else x.frames
    | none => x.frames
  total := x.total + c.arrival.toList.length

/-- The frames `done` were decoded and the frames `pending` are queued. -/
structure Accounts (w : NetWatch) (x : Watching) (done pending : List Arrival) (dropped : ℕ) :
    Prop where
  tail_lt : x.state.observer.tail < netobserveQueueSlots
  head_eq : x.state.observer.head =
    (x.state.observer.tail + x.state.observer.count) % netobserveQueueSlots
  count_le : x.state.observer.count ≤ netobserveQueueSlots
  frames_eq : x.frames = done ++ pending
  queued : Forall₂ Capture.Of x.state.observer.queued pending
  total_eq : x.total = dropped + x.frames.length
  captured : x.state.observer.stats.captured = BitVec.ofNat 32 x.total
  dropped_eq : x.state.observer.stats.dropped = BitVec.ofNat 32 dropped
  recorded : x.state.observer.stats.recorded = BitVec.ofNat 32 (done.countP (·.verdict.isRecorded))
  malformed : x.state.observer.stats.malformed =
    BitVec.ofNat 32 (done.countP (·.verdict.isMalformed))
  unknown : x.state.observer.stats.unknown = BitVec.ofNat 32 (done.countP (·.verdict.isUnknown))
  events : x.state.watch.events.map NetwatchEvent.sighting =
    (w.events.map NetwatchEvent.sighting ++ done.filterMap Arrival.sighting).rtake netwatchMaxEvents

variable {w : NetWatch} {x : Watching} {done pending : List Arrival} {dropped : ℕ} {a : Arrival}

theorem Accounts.count_eq (h : Accounts w x done pending dropped) :
    x.state.observer.count = pending.length := by
  rw [← h.queued.length_eq, NetObserve.queued, Ring.length_read]

theorem capture_cases (direction : NetwatchDirection) (frame : Option Frame) :
    ((ObserverCall.capture direction frame).arrival = none ∧
      ∀ o, netobserveCapture direction frame o = o) ∨
    ∃ f, frame = some f ∧ (ObserverCall.capture direction frame).arrival = some ⟨direction, f⟩ ∧
      f.length ≠ 0 := by
  cases frame with
  | none => exact .inl ⟨rfl, fun _ => rfl⟩
  | some frame =>
    cases frame with
    | nil => exact .inl ⟨rfl, fun _ => rfl⟩
    | cons b bs => exact .inr ⟨_, rfl, by simp [ObserverCall.arrival], Nat.succ_ne_zero _⟩

theorem ofNat_add_one (n : ℕ) : BitVec.ofNat 32 n + 1 = BitVec.ofNat 32 (n + 1) :=
  (BitVec.ofNat_add n 1).symm

section

variable (h : Accounts w x done pending dropped)

include h

namespace Accounts

theorem enqueue (hroom : x.state.observer.count < netobserveQueueSlots) {c : Capture}
    (hc : c.Of a) :
    Accounts w ⟨{ x.state with observer := x.state.observer.enqueue c }, x.frames ++ [a],
      x.total + 1⟩ done (pending ++ [a]) dropped := { h with
  head_eq := by
    dsimp only [NetObserve.enqueue]
    rw [h.head_eq, Nat.mod_add_mod, Nat.add_assoc]
  count_le := hroom
  frames_eq := by
    rw [h.frames_eq, append_assoc]
  queued := by
    rw [NetObserve.queued_enqueue h.tail_lt h.head_eq hroom]
    exact rel_append h.queued (.cons hc .nil)
  total_eq := by
    rw [h.total_eq, length_append, length_singleton, Nat.add_assoc]
  captured := by
    dsimp only [NetObserve.enqueue]
    rw [h.captured, ofNat_add_one] }

theorem drop :
    Accounts w ⟨{ x.state with observer := x.state.observer.overflow }, x.frames, x.total + 1⟩
      done pending (dropped + 1) := { h with
  total_eq := by
    dsimp only
    rw [h.total_eq]
    omega
  captured := by
    dsimp only [NetObserve.overflow]
    rw [h.captured, ofNat_add_one]
  dropped_eq := by
    dsimp only [NetObserve.overflow]
    rw [h.dropped_eq, ofNat_add_one] }

theorem capture (direction : NetwatchDirection) (frame : Option Frame) :
    ∃ pending' dropped', Accounts w (x.step (.capture direction frame)) done pending' dropped' := by
  obtain ⟨ha, hsame⟩ | ⟨f, rfl, ha, hne⟩ := capture_cases direction frame
  · have hstep : x.step (.capture direction frame) = x := by
      simp only [step, ha, hsame]
      rfl
    rw [hstep]
    exact ⟨_, _, h⟩
  · by_cases hroom : x.state.observer.count < netobserveQueueSlots
    · have henqueue := h.enqueue hroom
        (Capture.of_fill (x.state.observer.queue x.state.observer.head) direction f)
      refine ⟨_, _, Eq.mp (congrArg (Accounts w · done _ dropped) ?_) henqueue⟩
      simp only [step, ha, netobserveCapture, if_neg hne, if_neg (Nat.not_le_of_lt hroom),
        if_pos hroom]
      rfl
    · refine ⟨_, _, Eq.mp (congrArg (Accounts w · done _ _) ?_) h.drop⟩
      simp only [step, ha, netobserveCapture, if_neg hne, if_pos (Nat.le_of_not_lt hroom),
        if_neg hroom]
      rfl

theorem round {now : Word} {s : Observation} (hs : x.state.drainRound now = some s) :
    ∃ a pending', Accounts w ⟨s, x.frames, x.total⟩ (done ++ [a]) pending' dropped := by
  unfold Observation.drainRound at hs
  split_ifs at hs with hzero
  obtain ⟨n, hn⟩ := Nat.exists_eq_add_one_of_ne_zero hzero
  have hqueued := h.queued
  rw [NetObserve.queued, hn] at hqueued
  cases hqueued with
  | @cons _ a _ pending' ha hrest =>
    dsimp only at hs
    rw [ha.verdict_eq, ha.direction] at hs
    cases hs
    refine ⟨a, pending', ?_⟩
    have hslots : (0 : ℕ) < netobserveQueueSlots := by decide
    obtain ⟨reason, hobserver⟩ := observer_conclude now a.direction a.verdict x.state
    exact {
      tail_lt := Nat.mod_lt _ hslots
      head_eq := by
        simp only [hobserver, h.head_eq, Nat.mod_add_mod]
        congr 1
        omega
      count_le := by
        have := h.count_le
        simp only [hobserver]
        omega
      frames_eq := by
        rw [h.frames_eq, append_assoc]
        rfl
      queued := by
        simpa [NetObserve.queued, hobserver, hn] using hrest
      total_eq := h.total_eq
      captured := by simpa [hobserver] using h.captured
      dropped_eq := by simpa [hobserver] using h.dropped_eq
      recorded := by
        simp only [hobserver, h.recorded, countP_append, countP_singleton_toNat, BitVec.ofNat_add]
      malformed := by
        simp only [hobserver, h.malformed, countP_append, countP_singleton_toNat, BitVec.ofNat_add]
      unknown := by
        simp only [hobserver, h.unknown, countP_append, countP_singleton_toNat, BitVec.ofNat_add]
      events := by
        rw [events_conclude _ _ h.events, filterMap_append, ← append_assoc] }

theorem drainLoop (ticks : ℕ → Word) (n handled : ℕ) : ∃ done' pending', Accounts w
      ⟨(x.state.drainLoop ticks n handled).2, x.frames, x.total⟩ done' pending' dropped := by
  induction n generalizing x done pending handled with
  | zero => exact ⟨_, _, h⟩
  | succ n ih =>
    unfold Observation.drainLoop
    cases hs : x.state.drainRound (ticks handled) with
    | none => exact ⟨_, _, h⟩
    | some s =>
      obtain ⟨a, pending', h'⟩ := h.round hs
      exact ih h' (handled + 1)

theorem step (c : ObserverCall) :
    ∃ done' pending' dropped', Accounts w (x.step c) done' pending' dropped' := by
  cases c with
  | capture direction frame => exact ⟨_, h.capture direction frame⟩
  | round now =>
    have hstep : x.step (.round now) = ⟨(x.state.drainRound now).getD x.state, x.frames, x.total⟩ :=
      rfl
    rw [hstep]
    cases hs : x.state.drainRound now with
    | none => exact ⟨_, _, _, h⟩
    | some s =>
      obtain ⟨a, pending', h'⟩ := h.round hs
      exact ⟨_, _, _, h'⟩
  | drain ticks =>
    obtain ⟨done', pending', h'⟩ := h.drainLoop ticks netobserveDrainMax 0
    exact ⟨done', pending', dropped, h'⟩

end Accounts

end

def start (o : NetObserve) (w : NetWatch) (p : Provenance) : Watching :=
  { state := ⟨netobserveInit o, w, p⟩ }

theorem accounts_start (o : NetObserve) (w : NetWatch) (p : Provenance) :
    Accounts w (start o w p) [] [] 0 where
  tail_lt := Nat.zero_lt_succ 63
  head_eq := rfl
  count_le := Nat.zero_le _
  frames_eq := rfl
  queued := .nil
  total_eq := rfl
  captured := rfl
  dropped_eq := rfl
  recorded := rfl
  malformed := rfl
  unknown := rfl
  events := by
    rw [filterMap_nil, append_nil, rtake, length_map, Nat.sub_eq_zero_of_le w.length_le]
    rfl

theorem accounts_run (o : NetObserve) (w : NetWatch) (p : Provenance) (calls : List ObserverCall) :
    ∃ done pending dropped, Accounts w (run step (start o w p) calls) done pending dropped :=
  run_invariant (I := fun x => ∃ done pending dropped, Accounts w x done pending dropped)
    (fun _ c ⟨_, _, _, h⟩ => h.step c) ⟨[], [], 0, accounts_start o w p⟩ calls

theorem total_run (x : Watching) (calls : List ObserverCall) :
    (run step x calls).total = x.total + calls.countP (·.arrival.isSome) := by
  induction calls generalizing x with
  | nil => rfl
  | cons c calls ih =>
    rw [run_cons, ih]
    cases hc : c.arrival with
    | none => simp [step, hc]
    | some a =>
      simp [step, hc]
      omega

theorem Accounts.total_eq_sum (h : Accounts w x done pending dropped) :
    x.total = dropped + x.state.observer.count + done.countP (·.verdict.isRecorded) +
      done.countP (·.verdict.isMalformed) + done.countP (·.verdict.isUnknown) := by
  rw [h.total_eq, h.frames_eq, h.count_eq, length_append, length_eq_countP_verdict done]
  omega

end Watching

/-- The counters account for every frame, and events are in the order of capture. -/
theorem frames_accounted (o : NetObserve) (w : NetWatch) (p : Provenance)
    (calls : List ObserverCall) :
    let x := run Watching.step (.start o w p) calls
    let q := x.state.observer
    q.stats.captured = q.stats.dropped + BitVec.ofNat 32 q.count + q.stats.recorded +
        q.stats.malformed + q.stats.unknown ∧
      (calls.countP (·.arrival.isSome) < 2 ^ 32 →
        q.stats.captured.toNat = q.stats.dropped.toNat + q.count + q.stats.recorded.toNat +
          q.stats.malformed.toNat + q.stats.unknown.toNat) ∧
      ∃ done pending, x.frames = done ++ pending ∧ x.state.watch.events.map NetwatchEvent.sighting =
          (w.events.map NetwatchEvent.sighting ++ done.filterMap Arrival.sighting).rtake
            netwatchMaxEvents ∧
        Forall₂ (fun c a => c.Of a ∧ ∀ i ∈ (observe c.length c.caplen).log c.byte,
          i < a.caplen ∧ a.frame[i]? = some (c.byte i)) q.queued pending := by
  intro x q
  obtain ⟨done, pending, dropped, h⟩ := Watching.accounts_run o w p calls
  have hsum := h.total_eq_sum
  refine ⟨?_, fun hlt => ?_, done, pending, h.frames_eq, h.events, ?_⟩
  · rw [h.captured, h.dropped_eq, h.recorded, h.malformed, h.unknown, hsum]
    simp only [BitVec.ofNat_add]
    rfl
  · have htotal : (run Watching.step (.start o w p) calls).total < 2 ^ 32 := by
      rw [Watching.total_run]
      exact (Nat.zero_add _).trans_lt hlt
    rw [h.captured, h.dropped_eq, h.recorded, h.malformed, h.unknown]
    simp only [BitVec.toNat_ofNat]
    rw [Nat.mod_eq_of_lt htotal, Nat.mod_eq_of_lt (by omega), Nat.mod_eq_of_lt (by omega),
      Nat.mod_eq_of_lt (by omega), Nat.mod_eq_of_lt (by omega)]
    exact hsum
  · refine h.queued.imp fun c a hc => ⟨hc, fun i hi => ?_⟩
    have hlt := within_observe _ _ _ i hi
    exact ⟨hc.caplen ▸ hlt, hc.bytes i hlt⟩

theorem arp_frame_accounted :
    let arp : Frame := replicate 12 2 ++ [8, 6, 0, 1, 8, 0, 6, 4, 0, 1] ++
      replicate 6 2 ++ [10, 0, 0, 1] ++ replicate 6 0 ++ [10, 0, 0, 2]
    let slot : Capture := ⟨.rx, 0, 0, fun _ => 0⟩
    let x := run Watching.step (.start ⟨fun _ => slot, 0, 0, 0, {}⟩ netwatchInit .zero)
      [.capture .rx (some arp), .drain fun _ => 7, .capture .tx (some [1, 2, 3])]
    let q := x.state.observer
    x.state.watch.events.map NetwatchEvent.sighting = [(.rx, arpSighting 0x0A000001 0x0A000002)] ∧
      q.count = 1 ∧ q.stats.captured.toNat = q.stats.dropped.toNat + q.count +
        q.stats.recorded.toNat + q.stats.malformed.toNat + q.stats.unknown.toNat :=
  ⟨by decide +kernel, by decide +kernel, (frames_accounted _ _ _ _).2.1 (by decide)⟩

end Aevros
