import Aevros.Tcp.Window

/-! # The retransmission window

The scheduler against what it is for: a collection of consecutive segments in flight, and
round-trip samples of segments that were sent once.
-/

namespace Aevros

open Runs PacketsState Serial Function BitVec

def consecutive (u : Word) : List (ℕ × Frame) → List Flight
  | [] => []
  | (seqLen, frame) :: l => ⟨u, seqLen, frame⟩ :: consecutive (u + BitVec.ofNat 32 seqLen) l

def span (l : List (ℕ × Frame)) : ℕ := (l.map Prod.fst).sum

theorem length_consecutive (u : Word) (l : List (ℕ × Frame)) :
    (consecutive u l).length = l.length := by
  induction l generalizing u with
  | nil => rfl
  | cons x l ih => simp [consecutive, ih]

theorem sum_consecutive (u : Word) (l : List (ℕ × Frame)) :
    ((consecutive u l).map Flight.seqLen).sum = span l := by
  induction l generalizing u with
  | nil => rfl
  | cons x l ih => simp [consecutive, span, ih]

theorem ahead_consecutive {u : Word} {l : List (ℕ × Frame)} (hl : span l < 2 ^ 31) {x : Flight}
    (hx : x ∈ consecutive u l) : ahead u x.seq + x.seqLen ≤ span l := by
  induction l generalizing u with
  | nil => simp [consecutive] at hx
  | cons y l ih =>
    change y.1 + span l < _ at hl
    change _ ≤ y.1 + span l
    rcases List.mem_cons.mp hx with rfl | hx
    · simp
    · have hrest := ih (by omega) hx
      have hseq : x.seq = u + BitVec.ofNat 32 (y.1 + ahead (u + BitVec.ofNat 32 y.1) x.seq) := by
        rw [ofNat_add, ← add_assoc, add_ahead]
      rw [hseq, ahead_add_left (by omega)]
      omega

namespace PacketsState

variable {p : PacketsState} {u : Word} {l : List (ℕ × Frame)}

theorem within_of_consecutive (hp : p.inFlight = consecutive u l) (hl : span l < 2 ^ 31) :
    p.Within u := by
  intro i hi
  have hmem : (p.seg i).flight ∈ p.inFlight := mem_inFlight.mpr ⟨i, hi, rfl⟩
  rw [hp] at hmem
  have hle := ahead_consecutive hl hmem
  change ahead u (p.seg i).seq + _ ≤ _ at hle
  omega

theorem seqBefore_ends {n : ℕ} (hl : span l < 2 ^ 31) (hn : n ≤ span l) {x : Flight}
    (hx : x ∈ consecutive u l) :
    seqBefore (u + BitVec.ofNat 32 n) x.ends = true ↔ n < ahead u x.seq + x.seqLen := by
  have hle := ahead_consecutive hl hx
  have hends : x.ends = u + BitVec.ofNat 32 (ahead u x.seq + x.seqLen) := by
    rw [ofNat_add, ← add_assoc, add_ahead]
    rfl
  rw [hends, seqBefore_add_iff u (by omega) (by omega)]

end PacketsState

/-- The scheduler works on segments in flight as on a collection. -/
theorem scheduler_refines_inFlight (calls : List (Word × SchedCall)) (u : Word)
    (l : List (ℕ × Frame)) (hflight : (scheduled calls).inFlight = consecutive u l)
    (hspan : span l < 2 ^ 31) :
    (∀ now n, n ≤ span l → (schedulerAck now (scheduled calls) (u + BitVec.ofNat 32 n)).2.inFlight =
          (scheduled calls).inFlight.filter fun x => n < ahead u x.seq + x.seqLen) ∧
      ((scheduled calls).oldest = none ↔ (scheduled calls).inFlight = 0) ∧
      (∀ i, (scheduled calls).oldest = some i →
        ((scheduled calls).seg i).flight ∈ (scheduled calls).inFlight ∧
        ∀ x ∈ (scheduled calls).inFlight, ahead u ((scheduled calls).seg i).seq ≤ ahead u x.seq) ∧
      schedulerBytesInFlight (scheduled calls) = min 65535 (span l) ∧
      (∀ now seq seqLen frame, ((schedulerTrack now (scheduled calls) seq seqLen frame).1 = false ↔
          l.length = 4 ∨ frame.length = 0 ∨ 1600 < frame.length) ∧
        (schedulerTrack now (scheduled calls) seq seqLen frame).2.inFlight =
          if (schedulerTrack now (scheduled calls) seq seqLen frame).1 then
            ⟨seq, seqLen, frame⟩ ::ₘ (scheduled calls).inFlight
          else (scheduled calls).inFlight) ∧
      (schedulerCancel (scheduled calls)).inFlight = 0 := by
  have harmed : (scheduled calls).Armed := Runs.run_invariant Armed.call armed_boot calls
  generalize scheduled calls = p at hflight harmed ⊢
  refine ⟨fun now n hn => ?_, ?_, fun i hi => ?_, ?_, fun now seq seqLen frame => ?_, ?_⟩
  · rw [inFlight_ack harmed]
    refine Multiset.filter_congr fun x hx => ?_
    rw [hflight] at hx
    exact seqBefore_ends hspan hn hx
  · rw [oldest_eq_none_iff, inFlight_eq_zero]
  · have hwithin := within_of_consecutive hflight hspan
    obtain ⟨hused, hfirst⟩ := (oldest_eq_some_iff hwithin).mp hi
    refine ⟨mem_inFlight.mpr ⟨i, hused, rfl⟩, fun x hx => ?_⟩
    obtain ⟨j, hj, rfl⟩ := mem_inFlight.mp hx
    rcases hfirst j hj with h | ⟨h, -⟩
    · exact h.le
    · exact h.le
  · rw [bytesInFlight_eq, hflight, Multiset.map_coe, Multiset.sum_coe, sum_consecutive]
  · have hcard : p.used.card = l.length := by
      rw [← card_inFlight, hflight, Multiset.coe_card, length_consecutive]
    rcases p.track_cases now seq seqLen frame with ⟨heq, hwhy⟩ | ⟨i, -, hfree, hpos, hle, heq⟩
    · rw [heq]
      rw [hcard] at hwhy
      exact ⟨⟨fun _ => hwhy, fun _ => rfl⟩, rfl⟩
    · rw [heq]
      refine ⟨⟨nofun, fun h => ?_⟩, inFlight_put hfree⟩
      have hlt := Finset.card_lt_univ_of_notMem (x := i) (s := p.used) (by simp [hfree])
      rw [hcard] at hlt
      change l.length < 4 at hlt
      change frame.length ≤ 1600 at hle
      omega
  · exact inFlight_eq_zero.mpr fun _ => rfl

theorem acked_across_wrap :
    (schedulerAck 9 (scheduled [(1, .track 0xFFFFFFFF 2 [7]), (2, .track 1 3 [8])])
      (0xFFFFFFFF + BitVec.ofNat 32 2)).2.inFlight =
        (scheduled [(1, .track 0xFFFFFFFF 2 [7]), (2, .track 1 3 [8])]).inFlight.filter
          fun x => 2 < ahead 0xFFFFFFFF x.seq + x.seqLen :=
  (scheduler_refines_inFlight _ 0xFFFFFFFF [(2, [7]), (3, [8])] (by decide +kernel)
    (by decide)).1 9 2 (by decide)

namespace PacketsState

/-- What a call resends; a timeout that does is counted in `retryTrack`. -/
def resends (p : PacketsState) : Word × SchedCall → Option (Fin schedWindow)
  | (now, .ack acked) => if (schedulerAck now p acked).1.isSome then p.oldest else none
  | (now, .tick) => if (p.timer now).retryTrack = p.retryTrack + 1 then p.oldest else none
  | _ => none

end PacketsState

structure SentLog where
  window : PacketsState := {}
  sent : Fin schedWindow → ℕ := fun _ => 0

structure SchedEvent where
  now : Word
  call : SchedCall
  passed : Bool := true

namespace SentLog

variable (s : SentLog)

def resent (passed : Bool) : Option (Fin schedWindow) → Fin schedWindow → ℕ
  | some i => if passed then update s.sent i (s.sent i + 1) else s.sent
  | none => s.sent

variable (e : SchedEvent)

/-- A segment is sent when it is tracked and when it is resent. -/
def count : Fin schedWindow → ℕ :=
  match e.call with
  | .track seq seqLen frame =>
    if (schedulerTrack e.now s.window seq seqLen frame).1 then
      match Fin.find? fun i => !(s.window.seg i).inUse with
      | some i => update s.sent i 1
      | none => s.sent
    else s.sent
  | call => s.resent e.passed (s.window.resends (e.now, call))

def step : SentLog := ⟨s.window.call (e.now, e.call), s.count e⟩

/-- A round-trip sample is only taken from a segment that was sent once. -/
def Karn : Prop := ∀ acked i, s.window.sampled acked = some i → s.sent i = 1

/-- A third duplicate acknowledgement gets no segment resent for the first time. -/
def Undoubled : Prop :=
  ∀ acked, e.call = .ack acked → e.passed = true → s.window.state = .retry →
    (∀ i, s.window.covered acked i = false) → acked = s.window.lastAckSeen →
    schedDupAckThreshold ≤ s.window.dupAckCount + 1 →
    ∀ i, s.window.oldest = some i → (s.window.seg i).retransmitted = true

/-- The tracked segments that are not marked as resent were sent once. -/
def Fresh : Prop :=
  ∀ i, (s.window.seg i).inUse = true → (s.window.seg i).retransmitted = false → s.sent i = 1

theorem Fresh.karn {s : SentLog} (h : s.Fresh) : s.Karn := by
  intro acked i hi
  have hmem := Fin.eq_true_of_find?_eq_some hi
  simp only [covered, Bool.and_eq_true, Bool.not_eq_true'] at hmem
  exact h i hmem.1.1 hmem.2

theorem Fresh.congr {s s' : SentLog} (h : s.Fresh) (hsent : s'.sent = s.sent)
    (hseg : ∀ i, (s'.window.seg i).inUse = true → (s.window.seg i).inUse = true ∧
        (s'.window.seg i).retransmitted = (s.window.seg i).retransmitted) : s'.Fresh := by
  intro i hused hfresh
  obtain ⟨hused', hflag⟩ := hseg i hused
  rw [hsent]
  exact h i hused' (hflag ▸ hfresh)

section

variable {s : SentLog}

theorem resent_apply {passed : Bool} {slot : Option (Fin schedWindow)}
    {i : Fin schedWindow} (h : slot = some i → passed = false) :
    s.resent passed slot i = s.sent i := by
  unfold resent
  split
  · rename_i j
    split_ifs with hpassed
    · have hij : i ≠ j := by
        rintro rfl
        simp [h rfl] at hpassed
      rw [update_of_ne hij]
    · rfl
  · rfl

theorem Fresh.track (h : s.Fresh) {e : SchedEvent} {seq : Word} {seqLen : ℕ}
    {frame : Frame} (he : e.call = .track seq seqLen frame) : (s.step e).Fresh := by
  unfold step count
  simp only [he, call]
  rcases s.window.track_cases e.now seq seqLen frame with ⟨heq, -⟩ | ⟨i, hfind, -, -, -, heq⟩
  · simp only [heq]
    exact h
  · simp only [heq, hfind]
    intro j hused hfresh
    rcases eq_or_ne j i with rfl | hj
    · simp
    · simp only [put, update_of_ne hj] at hused hfresh
      simpa [hj] using h j hused hfresh

theorem flags_free (p : PacketsState) (acked : Word) (i : Fin schedWindow) :
    ((p.free acked).seg i).retransmitted = (p.seg i).retransmitted := by
  simp only [free]
  split_ifs <;> rfl

theorem Fresh.ack (h : s.Fresh) {e : SchedEvent} {acked : Word}
    (he : e.call = .ack acked) (hcond : s.Undoubled e) : (s.step e).Fresh := by
  have hstep : s.step e = ⟨(schedulerAck e.now s.window acked).2,
      s.resent e.passed (s.window.resends (e.now, .ack acked))⟩ := by
    simp only [step, count, he, call]
  rw [hstep, resends]
  rcases s.window.ack_cases e.now acked with ⟨-, heq⟩ | ⟨-, -, heq⟩ | ⟨hstate, hnone, heq⟩
  · rw [heq]
    exact h
  · rw [heq]
    refine h.congr rfl fun i hused => ?_
    simp only [seg_settle] at hused ⊢
    exact ⟨s.window.free_shrinks acked i hused, flags_free s.window acked i⟩
  · rw [heq]
    intro i hused hfresh
    refine (resent_apply fun hslot => ?_).trans (h i hused hfresh)
    -- the segment is resent, and it is not marked
    by_contra hpassed
    obtain ⟨hsome, hold⟩ := Option.ite_none_right_eq_some.mp hslot
    have hdup : acked = s.window.lastAckSeen ∧ schedDupAckThreshold ≤ s.window.dupAckCount + 1 := by
      by_contra hdup
      simp [hdup] at hsome
    have hflag := hcond acked he (by simpa using hpassed) hstate hnone hdup.1 hdup.2 i hold
    exact absurd hfresh (by simp [hflag])

theorem Fresh.tick (h : s.Fresh) {e : SchedEvent} (he : e.call = .tick) : (s.step e).Fresh := by
  rw [SentLog.step, count, he]
  intro i hused hfresh
  have hkeep (hsame : s.window.timer e.now = s.window) :
      s.resent e.passed (s.window.resends (e.now, .tick)) i = 1 := by
    have hnone : s.window.resends (e.now, .tick) = none := by simp [resends, hsame]
    rw [call, hsame] at hused hfresh
    rw [hnone]
    exact h i hused hfresh
  rcases s.window.timer_cases e.now with ⟨-, heq⟩ | ⟨-, hempty, heq⟩ | ⟨j, -, -, hj⟩
  · exact hkeep heq
  · rw [call, heq] at hused
    simp [hempty i] at hused
  · rcases hj with ⟨-, heq⟩ | ⟨-, -, heq⟩ | ⟨-, heq⟩
    · exact hkeep heq
    · rw [call, heq] at hfresh
      simp [backOff] at hfresh
    · rw [call, heq] at hused
      simp [clearWindow] at hused

end

theorem Fresh.step (h : s.Fresh) (hcond : s.Undoubled e) : (s.step e).Fresh := by
  cases he : e.call with
  | track seq seqLen frame => exact h.track he
  | ack acked => exact h.ack he hcond
  | cancel =>
    rintro i hused -
    simp [SentLog.step, he, call, schedulerCancel, clearWindow] at hused
  | tick => exact h.tick he

end SentLog

/-- Samples are from segments sent once, if duplicate acknowledgements get none resent. -/
theorem samples_sent_once (es : List SchedEvent)
    (hes : Along SentLog.step SentLog.Undoubled {} es) : (run SentLog.step {} es).Karn :=
  (hes.run_invariant SentLog.Fresh.step (by rintro i ⟨⟩)).karn

theorem first_sample_sent_once :
    (run SentLog.step {} [⟨0, .track 100 1 [7], true⟩, ⟨1, .ack 100, true⟩]).Karn ∧
      (run SentLog.step {} [⟨0, .track 100 1 [7], true⟩,
        ⟨1, .ack 100, true⟩]).window.sampled 101 = some 0 := by
  refine ⟨samples_sent_once _ ⟨by rintro _ ⟨⟩, ?_, trivial⟩, by decide +kernel⟩
  rintro _ ⟨⟩ - - - - hdup
  exact absurd hdup (by decide +kernel)

theorem fast_resent_sampled : ∃ es : List SchedEvent,
    (run SentLog.step {} es).window.sampled 101 = some 0 ∧ (run SentLog.step {} es).sent 0 = 2 ∧
      (run SentLog.step {} es).window.rto = 100 ∧
      (schedulerAck 50 (run SentLog.step {} es).window 101).2.rto = 150 :=
  ⟨⟨0, .track 100 1 [7], true⟩ :: List.replicate 4 ⟨30, .ack 100, true⟩, by decide +kernel⟩

end Aevros
