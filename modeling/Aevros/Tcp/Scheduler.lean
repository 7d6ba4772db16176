import Aevros.Wire.Segment
import Mathlib.Data.Fin.Basic

/-! # Scheduler, the retransmission window

At most four unacknowledged segments are tracked together with their frames. The timer and the third
duplicate acknowledgement resend the oldest one.
-/

namespace Aevros

open BitVec

abbrev schedWindow : ℕ := 4

def retryLimit : ℕ := 8
def schedInitialRto : Word := 100
def schedMinRto : Word := 20
def schedMaxRto : Word := 1000
def schedDupAckThreshold : ℕ := 3
def schedMaxFrame : ℕ := 1600

/-- Serial-number comparison: the difference is negative as a signed 32-bit number. -/
def seqBefore (a b : Word) : Bool := (a - b).slt 0

theorem seqBefore_iff (a b : Word) : seqBefore a b = true ↔ 2 ^ 31 ≤ (a - b).toNat := by
  rw [seqBefore]
  generalize a - b = d
  rw [slt_iff_toInt_lt, toInt_eq_toNat_cond]
  split_ifs <;> simp <;> omega

theorem seqBefore_add_iff (x : Word) {m n : ℕ} (hm : m < 2 ^ 31) (hn : n < 2 ^ 31) :
    seqBefore (x + BitVec.ofNat 32 m) (x + BitVec.ofNat 32 n) = true ↔ m < n := by
  have hd : x + BitVec.ofNat 32 m - (x + BitVec.ofNat 32 n) =
      BitVec.ofNat 32 m - BitVec.ofNat 32 n := by bv_omega
  rw [seqBefore_iff, hd, toNat_sub, toNat_ofNat, toNat_ofNat]
  omega

structure SchedSegment where
  seq : Word := 0
  seqLen : ℕ := 0
  startTimer : Word := 0
  inUse : Bool := false
  retransmitted : Bool := false
  frame : Frame := []
  deriving DecidableEq

def SchedSegment.ends (e : SchedSegment) : Word := e.seq + BitVec.ofNat 32 e.seqLen

inductive PacketState
  | idle
  | retry
  | failure
  deriving DecidableEq

structure PacketsState where
  seg : Fin schedWindow → SchedSegment := fun _ => {}
  state : PacketState := .idle
  retryTrack : ℕ := 0
  srtt : Word := 0
  rttvar : Word := 0
  rto : Word := 0
  lastAckSeen : Word := 0
  dupAckCount : ℕ := 0

namespace PacketsState

variable (p : PacketsState)

def oldest : Option (Fin schedWindow) :=
  (List.finRange schedWindow).foldl (fun best i =>
    if (p.seg i).inUse && best.all fun j => seqBefore (p.seg i).seq (p.seg j).seq then some i
    else best) none

def clearWindow : PacketsState :=
  { p with
    seg := fun i => { p.seg i with inUse := false }
    state := .idle
    retryTrack := 0
    dupAckCount := 0 }

def covered (acked : Word) (i : Fin schedWindow) : Bool :=
  (p.seg i).inUse && !seqBefore acked (p.seg i).ends

/-- The first freed segment that was sent only once. -/
def sampled (acked : Word) : Option (Fin schedWindow) :=
  Fin.find? fun i => p.covered acked i && !(p.seg i).retransmitted

/-- The round-trip sample: the age of that segment. -/
def sample (now : Word) (p : PacketsState) (acked : Word) : Option Word :=
  (p.sampled acked).map fun i => now - (p.seg i).startTimer

def addSample (sample : Word) : PacketsState :=
  let diff := if p.srtt < sample then sample - p.srtt else p.srtt - sample
  let rttvar := if p.srtt = 0 then sample / 2 else p.rttvar - p.rttvar / 4 + diff / 4
  let srtt := if p.srtt = 0 then sample else p.srtt - p.srtt / 8 + sample / 8
  let rto := srtt + 4 * rttvar
  let rto := if rto < schedMinRto then schedMinRto else rto
  let rto := if schedMaxRto < rto then schedMaxRto else rto
  { p with srtt := srtt, rttvar := rttvar, rto := rto }

def free (acked : Word) : PacketsState :=
  { p with seg := fun i => if p.covered acked i then { p.seg i with inUse := false } else p.seg i }

end PacketsState

def schedulerTrack (now : Word) (p : PacketsState) (seq : Word) (seqLen : ℕ) (frame : Frame) :
    Bool × PacketsState :=
  if frame.length = 0 ∨ schedMaxFrame < frame.length then (false, p)
  else match Fin.find? fun i => !(p.seg i).inUse with
    | none => (false, p)
    | some i => (true, { p with
        seg := Function.update p.seg i ⟨seq, seqLen, now, true, false, frame⟩
        state := .retry
        retryTrack := if p.state ≠ .retry then 0 else p.retryTrack
        dupAckCount := if p.state ≠ .retry then 0 else p.dupAckCount
        rto := if p.rto = 0 then schedInitialRto else p.rto })

/-- The frame that an acknowledgement makes the scheduler resend, if any, and the new window. -/
def schedulerAck (now : Word) (p : PacketsState) (acked : Word) : Option Frame × PacketsState :=
  if p.state ≠ .retry then (none, p)
  else if (Fin.find? (p.covered acked)).isSome then
    let q := p.free acked
    let q := match p.sample now acked with
      | none => q
      | some sample => q.addSample sample
    (none, { q with
      retryTrack := 0
      dupAckCount := 0
      lastAckSeen := acked
      state := if q.oldest.isNone then .idle else q.state })
  else if acked = p.lastAckSeen then
    if schedDupAckThreshold ≤ p.dupAckCount + 1 then
      (p.oldest.map fun i => (p.seg i).frame, { p with dupAckCount := 0 })
    else (none, { p with dupAckCount := p.dupAckCount + 1 })
  else (none, { p with lastAckSeen := acked, dupAckCount := 0 })

def schedulerCancel (p : PacketsState) : PacketsState :=
  { p.clearWindow with rto := 0, srtt := 0, rttvar := 0 }

def schedulerBytesInFlight (p : PacketsState) : ℕ :=
  min 65535 (∑ i, if (p.seg i).inUse then (p.seg i).seqLen else 0)

def schedulerFreeSlots (p : PacketsState) : ℕ := Fin.countP fun i => !(p.seg i).inUse

variable {p : PacketsState}

def PacketsState.Empty (p : PacketsState) : Prop := ∀ i, (p.seg i).inUse = false

theorem PacketsState.oldest_inUse {i : Fin schedWindow} (h : p.oldest = some i) :
    (p.seg i).inUse = true := by
  have hfold : ∀ (is : List (Fin schedWindow)) (best : Option (Fin schedWindow)),
      (∀ j ∈ best, (p.seg j).inUse = true) → ∀ j ∈ is.foldl (fun best i =>
        if (p.seg i).inUse && best.all fun j => seqBefore (p.seg i).seq (p.seg j).seq then some i
        else best) best, (p.seg j).inUse = true := by
    intro is
    induction is with
    | nil => exact fun _ hb => hb
    | cons i is ih =>
      intro best hbest
      rw [List.foldl_cons]
      refine ih _ ?_
      split_ifs with hc
      · rintro j ⟨⟩
        exact (Bool.and_eq_true_iff.mp hc).1
      · exact hbest
  exact hfold _ none (by simp) i h

end Aevros
