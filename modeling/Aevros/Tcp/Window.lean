import Aevros.Library.Serial
import Aevros.Tcp.Effects

/-! # The segments in flight

A window stands for the collection of the segments in flight. The calls of the scheduler add to it,
take from it and choose from it by the distance from a common number.
-/

namespace Aevros

open Serial Finset

inductive SchedCall
  | track (seq : Word) (seqLen : ℕ) (frame : Frame)
  | ack (acked : Word)
  | cancel
  | tick
  deriving DecidableEq

namespace PacketsState

def timer (now : Word) (p : PacketsState) : PacketsState :=
  if p.state ≠ .retry then p
  else match p.oldest with
    | none => { p with state := .idle }
    | some i =>
      if now - (p.seg i).startTimer < p.rto then p
      else if retryLimit ≤ p.retryTrack then { p.clearWindow with state := .failure }
      else p.backOff now i

/-- The timer has run out once more than there are retries. -/
def GivesUp (now : Word) (p : PacketsState) : Prop :=
  p.state = .retry ∧ retryLimit ≤ p.retryTrack ∧
    ∃ i, p.oldest = some i ∧ ¬ now - (p.seg i).startTimer < p.rto

def call (p : PacketsState) : Word × SchedCall → PacketsState
  | (now, .track seq seqLen frame) => (schedulerTrack now p seq seqLen frame).2
  | (now, .ack acked) => (schedulerAck now p acked).2
  | (_, .cancel) => schedulerCancel p
  | (now, .tick) => p.timer now

end PacketsState

theorem schedulerTimer_snd (now : Word) (k : Conn) : (¬ k.scheduler.GivesUp now ∧
        (schedulerTimer now k).2 = k.setScheduler (k.scheduler.timer now)) ∨
      (k.scheduler.GivesUp now ∧
        (schedulerTimer now k).2 = rapportOnRst (k.setScheduler (k.scheduler.timer now))) := by
  unfold schedulerTimer PacketsState.timer PacketsState.GivesUp
  by_cases hstate : k.scheduler.state = .retry
  · cases hold : k.scheduler.oldest with
    | none => simp [hstate, hold]
    | some i =>
      by_cases hwait : now - (k.scheduler.seg i).startTimer < k.scheduler.rto
      · simp [hold, hwait, Conn.setScheduler]
      · by_cases hlimit : retryLimit ≤ k.scheduler.retryTrack
        · simp [hstate, hold, hwait, hlimit, BitVec.not_lt.mp hwait]
        · simp [hstate, hold, hwait, hlimit]
  · simp [hstate, Conn.setScheduler]

structure Flight where
  seq : Word
  seqLen : ℕ
  frame : Frame
  deriving DecidableEq

def Flight.ends (x : Flight) : Word := x.seq + BitVec.ofNat 32 x.seqLen

def SchedSegment.flight (e : SchedSegment) : Flight := ⟨e.seq, e.seqLen, e.frame⟩

namespace PacketsState

variable {p : PacketsState} {u : Word} {i : Fin schedWindow}

def used (p : PacketsState) : Finset (Fin schedWindow) := {i | (p.seg i).inUse = true}

@[simp] theorem mem_used : i ∈ p.used ↔ (p.seg i).inUse = true := by simp [used]

def inFlight (p : PacketsState) : Multiset Flight := p.used.val.map fun i => (p.seg i).flight

theorem mem_inFlight {x : Flight} :
    x ∈ p.inFlight ↔ ∃ i, (p.seg i).inUse = true ∧ (p.seg i).flight = x := by
  simp [inFlight]

theorem inFlight_eq_zero : p.inFlight = 0 ↔ p.Empty := by
  rw [inFlight, Multiset.map_eq_zero, val_eq_zero, eq_empty_iff_forall_notMem]
  simp [Empty]

theorem card_inFlight : p.inFlight.card = p.used.card := by simp [inFlight]

theorem bytesInFlight_eq :
    schedulerBytesInFlight p = min 65535 (p.inFlight.map Flight.seqLen).sum := by
  rw [schedulerBytesInFlight, ← sum_filter, inFlight, Multiset.map_map]
  rfl

/-- All segments in flight are tracked for retransmission. -/
def Armed (p : PacketsState) : Prop := p.Empty ∨ p.state = .retry

section

variable (now : Word)

def put (p : PacketsState) (i : Fin schedWindow) (x : Flight) : PacketsState :=
  { p with
    seg := Function.update p.seg i ⟨x.seq, x.seqLen, now, true, false, x.frame⟩
    state := .retry
    retryTrack := if p.state ≠ .retry then 0 else p.retryTrack
    dupAckCount := if p.state ≠ .retry then 0 else p.dupAckCount
    rto := if p.rto = 0 then schedInitialRto else p.rto }

theorem track_cases (p : PacketsState) (seq : Word) (seqLen : ℕ) (frame : Frame) :
    (schedulerTrack now p seq seqLen frame = (false, p) ∧
        (p.used.card = schedWindow ∨ frame.length = 0 ∨ schedMaxFrame < frame.length)) ∨
      ∃ i, Fin.find? (fun i => !(p.seg i).inUse) = some i ∧ (p.seg i).inUse = false ∧
        0 < frame.length ∧ frame.length ≤ schedMaxFrame ∧
        schedulerTrack now p seq seqLen frame = (true, p.put now i ⟨seq, seqLen, frame⟩) := by
  unfold schedulerTrack
  split
  · rename_i hframe
    exact .inl ⟨rfl, .inr hframe⟩
  · rename_i hframe
    cases hfind : Fin.find? fun i => !(p.seg i).inUse with
    | none =>
      rw [Fin.find?_eq_none_iff] at hfind
      have hall : p.used = univ := by
        ext i
        simpa using hfind i
      exact .inl ⟨rfl, .inl (by rw [hall, card_univ, Fintype.card_fin])⟩
    | some i =>
      have hfree := Fin.eq_true_of_find?_eq_some hfind
      push Not at hframe
      exact .inr ⟨i, rfl, by simpa using hfree, Nat.pos_of_ne_zero hframe.1, hframe.2, rfl⟩

theorem used_put {now : Word} {x : Flight} : (p.put now i x).used = insert i p.used := by
  ext j
  rcases eq_or_ne j i with rfl | hj
  · simp [put]
  · simp [put, hj]

theorem flight_put {now : Word} {x : Flight} {j : Fin schedWindow} :
    ((p.put now i x).seg j).flight = if j = i then x else (p.seg j).flight := by
  rcases eq_or_ne j i with rfl | hj
  · simp [put, SchedSegment.flight]
  · simp [put, hj]

theorem inFlight_put {now : Word} {x : Flight} (hi : (p.seg i).inUse = false) :
    (p.put now i x).inFlight = x ::ₘ p.inFlight := by
  have hnot : i ∉ p.used := by simp [hi]
  rw [inFlight, used_put, insert_val_of_notMem hnot, Multiset.map_cons, flight_put, if_pos rfl]
  congr 1
  refine Multiset.map_congr rfl fun j hj => ?_
  rw [flight_put, if_neg]
  rintro rfl
  exact hnot hj

theorem used_free (p : PacketsState) (acked : Word) :
    (p.free acked).used = p.used.filter fun i => seqBefore acked (p.seg i).ends = true := by
  ext i
  simp only [free, covered]
  by_cases hu : (p.seg i).inUse = true <;> by_cases hb : seqBefore acked (p.seg i).ends = true <;>
    simp [hu, hb]

theorem flight_free (p : PacketsState) (acked : Word) (i : Fin schedWindow) :
    ((p.free acked).seg i).flight = (p.seg i).flight := by
  simp only [free]
  split_ifs <;> rfl

theorem inFlight_free (p : PacketsState) (acked : Word) :
    (p.free acked).inFlight = p.inFlight.filter fun x => seqBefore acked x.ends = true := by
  rw [inFlight, used_free, inFlight, Multiset.filter_map]
  exact Multiset.map_congr rfl fun i _ => flight_free p acked i

variable (p : PacketsState) (acked : Word)

def settle : PacketsState :=
  match p.sample now acked with
  | none => p.free acked
  | some sample => (p.free acked).addSample sample

@[simp] theorem seg_settle : (p.settle now acked).seg = (p.free acked).seg := by
  unfold settle
  split <;> rfl

theorem ack_cases : (p.state ≠ .retry ∧ schedulerAck now p acked = (none, p)) ∨
      (p.state = .retry ∧ (∃ i, p.covered acked i = true) ∧
        schedulerAck now p acked = (none, { p.settle now acked with
          retryTrack := 0
          dupAckCount := 0
          lastAckSeen := acked
          state := if (p.settle now acked).oldest.isNone then .idle else p.state })) ∨
      (p.state = .retry ∧ (∀ i, p.covered acked i = false) ∧ schedulerAck now p acked =
          (if acked = p.lastAckSeen ∧ schedDupAckThreshold ≤ p.dupAckCount + 1 then
            p.oldest.map fun i => (p.seg i).frame
          else none, { p with
            lastAckSeen := acked
            dupAckCount :=
              if acked = p.lastAckSeen ∧ ¬ schedDupAckThreshold ≤ p.dupAckCount + 1 then
                p.dupAckCount + 1
              else 0 })) := by
  by_cases hstate : p.state = .retry
  · refine .inr ?_
    by_cases hfind : (Fin.find? (p.covered acked)).isSome
    · refine .inl ⟨hstate, by simpa using hfind, ?_⟩
      simp only [schedulerAck, hstate, hfind, settle]
      cases p.sample now acked with
      | none => simp [free, hstate]
      | some sample => simp [free, addSample, hstate]
    · refine .inr ⟨hstate, by simpa using hfind, ?_⟩
      simp only [schedulerAck, hstate, hfind]
      by_cases hlast : acked = p.lastAckSeen
      · by_cases hdup : schedDupAckThreshold ≤ p.dupAckCount + 1 <;> simp [hlast, hdup]
      · simp [hlast]
  · exact .inl ⟨hstate, by simp [schedulerAck, hstate]⟩

theorem seg_ack :
    (schedulerAck now p acked).2.seg = if p.state = .retry then (p.free acked).seg else p.seg := by
  rcases ack_cases now p acked with ⟨h, heq⟩ | ⟨h, -, heq⟩ | ⟨h, hnone, heq⟩
  · rw [heq, if_neg h]
  · rw [heq, if_pos h]
    exact seg_settle now p acked
  · simp [heq, h, free, hnone]

end

theorem inUse_ack (hp : p.Armed) (now acked : Word) (i : Fin schedWindow) :
    ((schedulerAck now p acked).2.seg i).inUse = true ↔
      (p.seg i).inUse = true ∧ seqBefore acked (p.seg i).ends = true := by
  have hseg := seg_ack now p acked
  split_ifs at hseg with hstate
  · rw [hseg, ← mem_used, used_free, mem_filter, mem_used]
  · have hempty := hp.resolve_right hstate
    simp [hseg, hempty i]

theorem inFlight_congr {q : PacketsState} (h : p.seg = q.seg) : p.inFlight = q.inFlight := by
  rw [inFlight, inFlight, used, used, h]

theorem inFlight_ack (hp : p.Armed) (now acked : Word) : (schedulerAck now p acked).2.inFlight =
    p.inFlight.filter fun x => seqBefore acked x.ends = true := by
  have hseg := seg_ack now p acked
  split_ifs at hseg with hstate
  · rw [inFlight_congr hseg, inFlight_free]
  · have hempty := inFlight_eq_zero.mpr (hp.resolve_right hstate)
    rw [inFlight_congr hseg, hempty, Multiset.filter_zero]

theorem oldest_eq_earliest (p : PacketsState) : p.oldest =
    earliest (fun i => (p.seg i).inUse) (fun i j => seqBefore (p.seg i).seq (p.seg j).seq)
      (List.finRange schedWindow) := rfl

theorem oldest_eq_none_iff : p.oldest = none ↔ p.Empty := by
  rw [oldest_eq_earliest, earliest_eq_none_iff]
  simp [Empty]

/-- The segments begin in the half of the space that follows `u`. -/
def Within (u : Word) (p : PacketsState) : Prop :=
  ∀ i, (p.seg i).inUse = true → ahead u (p.seg i).seq < 2 ^ 31

end PacketsState

theorem seqBefore_iff_ahead {u a b : Word} (ha : ahead u a < 2 ^ 31) (hb : ahead u b < 2 ^ 31) :
    seqBefore a b = true ↔ ahead u a < ahead u b := by
  rw [← seqBefore_add_iff u ha hb, add_ahead, add_ahead]

namespace PacketsState

variable {p : PacketsState} {u : Word} {i : Fin schedWindow}

/-- The first of the tracked segments with the least number. -/
def IsOldest (u : Word) (p : PacketsState) (i : Fin schedWindow) : Prop :=
  (p.seg i).inUse = true ∧ ∀ j, (p.seg j).inUse = true →
    ahead u (p.seg i).seq < ahead u (p.seg j).seq ∨
      ahead u (p.seg i).seq = ahead u (p.seg j).seq ∧ i ≤ j

theorem oldest_eq_some_iff (hp : p.Within u) : p.oldest = some i ↔ p.IsOldest u i := by
  rw [oldest_eq_earliest, earliest_eq_some_iff (fun i => ahead u (p.seg i).seq)
    (fun i j hi hj => seqBefore_iff_ahead (hp i hi) (hp j hj)) (List.pairwise_lt_finRange _)]
  simp [Leads, IsOldest]

theorem timer_cases (now : Word) (p : PacketsState) : (p.state ≠ .retry ∧ p.timer now = p) ∨
      (p.state = .retry ∧ p.Empty ∧ p.timer now = { p with state := .idle }) ∨
      ∃ i, p.state = .retry ∧ p.oldest = some i ∧
        ((now - (p.seg i).startTimer < p.rto ∧ p.timer now = p) ∨
          (¬ now - (p.seg i).startTimer < p.rto ∧ p.retryTrack < retryLimit ∧
            p.timer now = p.backOff now i) ∨
          (p.GivesUp now ∧ p.timer now = { p.clearWindow with state := .failure })) := by
  by_cases hstate : p.state = .retry
  · cases hold : p.oldest with
    | none =>
      refine .inr (.inl ⟨hstate, oldest_eq_none_iff.mp hold, ?_⟩)
      simp [timer, hstate, hold]
    | some i =>
      refine .inr (.inr ⟨i, hstate, rfl, ?_⟩)
      by_cases hwait : now - (p.seg i).startTimer < p.rto
      · exact .inl ⟨hwait, by simp [timer, hold, hwait]⟩
      · by_cases hlimit : retryLimit ≤ p.retryTrack
        · exact .inr (.inr ⟨⟨hstate, hlimit, i, hold, hwait⟩,
            by simp [timer, hstate, hold, hwait, hlimit]⟩)
        · exact .inr (.inl ⟨hwait, Nat.lt_of_not_le hlimit,
            by simp [timer, hstate, hold, hwait, hlimit]⟩)
  · exact .inl ⟨hstate, by simp [timer, hstate]⟩

theorem armed_boot : ({} : PacketsState).Armed := .inl fun _ => rfl

theorem Armed.track (hp : p.Armed) (now seq : Word) (seqLen : ℕ) (frame : Frame) :
    (schedulerTrack now p seq seqLen frame).2.Armed := by
  rcases track_cases now p seq seqLen frame with ⟨heq, -⟩ | ⟨i, -, -, -, -, heq⟩
  · rw [heq]
    exact hp
  · rw [heq]
    exact .inr rfl

theorem Armed.ack (hp : p.Armed) (now acked : Word) : (schedulerAck now p acked).2.Armed := by
  rcases ack_cases now p acked with ⟨-, heq⟩ | ⟨hstate, -, heq⟩ | ⟨hstate, -, heq⟩
  · rw [heq]
    exact hp
  · rw [heq]
    by_cases hold : (p.settle now acked).oldest = none
    · exact .inl (oldest_eq_none_iff.mp hold)
    · refine .inr ?_
      simp [hold, hstate]
  · rw [heq]
    exact .inr hstate

theorem Armed.timer (hp : p.Armed) (now : Word) : (p.timer now).Armed := by
  rcases timer_cases now p with ⟨-, heq⟩ | ⟨-, hempty, heq⟩ | ⟨i, hstate, -, h⟩
  · rwa [heq]
  · rw [heq]
    exact .inl hempty
  · rcases h with ⟨-, heq⟩ | ⟨-, -, heq⟩ | ⟨-, heq⟩
    · rwa [heq]
    · rw [heq]
      exact .inr hstate
    · rw [heq]
      exact .inl fun _ => rfl

theorem Armed.call (p : PacketsState) (c : Word × SchedCall) (hp : p.Armed) : (p.call c).Armed := by
  obtain ⟨now, c⟩ := c
  cases c with
  | track seq seqLen frame => exact hp.track now seq seqLen frame
  | ack acked => exact hp.ack now acked
  | cancel => exact .inl fun _ => rfl
  | tick => exact hp.timer now

end PacketsState

/-- The calls taken one after the other, from a window at boot. -/
def scheduled (calls : List (Word × SchedCall)) : PacketsState :=
  Runs.run PacketsState.call {} calls

end Aevros
