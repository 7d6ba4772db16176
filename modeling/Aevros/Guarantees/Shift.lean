import Aevros.Library.Wrap
import Aevros.Sockets.Frontdoor
import Aevros.Tcp.Effects

/-! # Shifting the sequence numbers

Two runs of one connection that differ only in where the sequence numbers start stay in step as long
as the shift wraps for both sides of each unsigned comparison or for neither.
-/

namespace Aevros

open Runs Option Segment Wrap List Bool

variable {a b : Word} {k k' : Conn} {p p' : PacketsState}

structure SegShift (a : Word) (e e' : SchedSegment) : Prop where
  inUse : e'.inUse = e.inUse
  seq : e.inUse = true → e'.seq = e.seq + a
  seqLen : e.inUse = true → e'.seqLen = e.seqLen
  startTimer : e.inUse = true → e'.startTimer = e.startTimer
  retransmitted : e.inUse = true → e'.retransmitted = e.retransmitted

structure WindowShift (a : Word) (p p' : PacketsState) : Prop where
  seg : ∀ i, SegShift a (p.seg i) (p'.seg i)
  state : p'.state = p.state
  retryTrack : p'.retryTrack = p.retryTrack
  srtt : p'.srtt = p.srtt
  rttvar : p'.rttvar = p.rttvar
  rto : p'.rto = p.rto

theorem SegShift.of_free {e e' : SchedSegment} (h : e.inUse = false) (h' : e'.inUse = false) :
    SegShift a e e' :=
  ⟨h'.trans h.symm, by simp [h], by simp [h], by simp [h], by simp [h]⟩

theorem seqBefore_shift (x y : Word) : seqBefore (x + a) (y + a) = seqBefore x y := by
  have hd : x + a - (y + a) = x - y := by bv_omega
  rw [seqBefore, seqBefore, hd]

namespace WindowShift

theorem of_empty (hp : p.Empty) : WindowShift a p p :=
  ⟨fun i => .of_free (hp i) (hp i), rfl, rfl, rfl, rfl, rfl⟩

section

variable (h : WindowShift a p p')

include h

theorem covered (acked : Word) (i : Fin schedWindow) :
    p'.covered (acked + a) i = p.covered acked i := by
  unfold PacketsState.covered
  rw [(h.seg i).inUse]
  cases hu : (p.seg i).inUse with
  | false => rw [Bool.false_and, Bool.false_and]
  | true =>
    have hends : (p'.seg i).ends = (p.seg i).ends + a := by
      rw [SchedSegment.ends, (h.seg i).seq hu, (h.seg i).seqLen hu]
      ac_rfl
    rw [hends, seqBefore_shift]

theorem oldest : p'.oldest = p.oldest := by
  have hfold : ∀ (is : List (Fin schedWindow)) (best : Option (Fin schedWindow)),
      (∀ j ∈ best, (p.seg j).inUse = true) →
      is.foldl (fun best i => if (p'.seg i).inUse && best.all fun j =>
        seqBefore (p'.seg i).seq (p'.seg j).seq then some i else best) best =
      is.foldl (fun best i => if (p.seg i).inUse && best.all fun j =>
        seqBefore (p.seg i).seq (p.seg j).seq then some i else best) best := by
    intro is
    induction is with
    | nil =>
      intro best _
      rw [foldl_nil, foldl_nil]
    | cons i is ih =>
      intro best hbest
      have htest : ((p'.seg i).inUse && best.all fun j =>
          seqBefore (p'.seg i).seq (p'.seg j).seq) = ((p.seg i).inUse && best.all fun j =>
          seqBefore (p.seg i).seq (p.seg j).seq) := by
        rw [(h.seg i).inUse]
        cases hu : (p.seg i).inUse with
        | false => rw [Bool.false_and, Bool.false_and]
        | true =>
          cases best with
          | none => simp only [all_none]
          | some j =>
            simp only [all_some]
            rw [(h.seg i).seq hu, (h.seg j).seq (hbest j rfl), seqBefore_shift]
      rw [foldl_cons, htest]
      refine ih _ ?_
      split_ifs with hc
      · rintro j ⟨⟩
        exact (and_eq_true_iff.mp hc).1
      · exact hbest
  exact hfold _ none (by simp)

theorem free (acked : Word) : WindowShift a (p.free acked) (p'.free (acked + a)) := by
  refine ⟨fun i => ?_, h.state, h.retryTrack, h.srtt, h.rttvar, h.rto⟩
  simp only [PacketsState.free]
  rw [h.covered acked i]
  split_ifs
  · exact .of_free rfl rfl
  · exact h.seg i

theorem sample (now acked : Word) : p'.sample now (acked + a) = p.sample now acked := by
  have htest : (fun i => p'.covered (acked + a) i && !(p'.seg i).retransmitted) =
      fun i => p.covered acked i && !(p.seg i).retransmitted := by
    funext i
    rw [h.covered acked i]
    cases hc : p.covered acked i with
    | false => rw [Bool.false_and, Bool.false_and]
    | true => rw [(h.seg i).retransmitted (and_eq_true_iff.mp hc).1]
  unfold PacketsState.sample PacketsState.sampled
  rw [htest]
  cases hf : Fin.find? fun i => p.covered acked i && !(p.seg i).retransmitted with
  | none => simp only [map_none]
  | some i =>
    have hc := (and_eq_true_iff.mp (Fin.eq_true_of_find?_eq_some hf)).1
    rw [map_some, map_some, (h.seg i).startTimer (and_eq_true_iff.mp hc).1]

theorem addSample (x : Word) : WindowShift a (p.addSample x) (p'.addSample x) := by
  refine ⟨h.seg, h.state, h.retryTrack, ?_, ?_, ?_⟩ <;>
    simp only [PacketsState.addSample, h.srtt, h.rttvar]

theorem ack (now acked : Word) :
    WindowShift a (schedulerAck now p acked).2 (schedulerAck now p' (acked + a)).2 := by
  have hcov : p'.covered (acked + a) = p.covered acked := funext (h.covered acked)
  -- a different count of duplicates, or a different last acknowledgement, does not matter
  have hdup : ∀ x n x' n', WindowShift a { p with lastAckSeen := x, dupAckCount := n }
      { p' with lastAckSeen := x', dupAckCount := n' } := fun _ _ _ _ =>
    ⟨h.seg, h.state, h.retryTrack, h.srtt, h.rttvar, h.rto⟩
  have hq : ∀ (q q' : PacketsState) x x', WindowShift a q q' → WindowShift a
      { q with retryTrack := 0, dupAckCount := 0, lastAckSeen := x,
               state := if q.oldest.isNone then .idle else q.state }
      { q' with retryTrack := 0, dupAckCount := 0, lastAckSeen := x',
                state := if q'.oldest.isNone then .idle else q'.state } := fun q q' _ _ hq =>
    ⟨hq.seg, by rw [hq.oldest, hq.state], rfl, hq.srtt, hq.rttvar, hq.rto⟩
  unfold schedulerAck
  rw [hcov, h.sample now acked]
  by_cases hs : p.state ≠ .retry
  · have hs' : p'.state ≠ .retry := by rwa [h.state]
    rw [if_pos hs, if_pos hs']
    exact h
  have hs' : ¬ p'.state ≠ .retry := by rwa [h.state]
  rw [if_neg hs, if_neg hs']
  split_ifs
  · cases p.sample now acked with
    | none => exact hq _ _ _ _ (h.free acked)
    | some x => exact hq _ _ _ _ ((h.free acked).addSample x)
  all_goals exact hdup _ _ _ _

theorem track (now seq : Word) (seqLen : ℕ) {frame frame' : Frame}
    (hf : frame'.length = frame.length) :
    WindowShift a (schedulerTrack now p seq seqLen frame).2
      (schedulerTrack now p' (seq + a) seqLen frame').2 := by
  have hfree : (fun i => !(p'.seg i).inUse) = fun i => !(p.seg i).inUse :=
    funext fun i => by rw [(h.seg i).inUse]
  unfold schedulerTrack
  rw [hf, hfree]
  split
  · exact h
  · cases Fin.find? fun i => !(p.seg i).inUse with
    | none => exact h
    | some i =>
      refine ⟨fun j => ?_, rfl, ?_, h.srtt, h.rttvar, ?_⟩
      · simp only [Function.update_apply]
        split_ifs
        · exact ⟨rfl, fun _ => rfl, fun _ => rfl, fun _ => rfl, fun _ => rfl⟩
        · exact h.seg j
      · simp only [h.state, h.retryTrack]
      · simp only [h.rto]

theorem cleared (st : PacketState) :
    WindowShift a { p.clearWindow with state := st } { p'.clearWindow with state := st } :=
  ⟨fun _ => .of_free rfl rfl, rfl, rfl, h.srtt, h.rttvar, h.rto⟩

theorem setState (st : PacketState) :
    WindowShift a { p with state := st } { p' with state := st } :=
  ⟨h.seg, rfl, h.retryTrack, h.srtt, h.rttvar, h.rto⟩

theorem backOff (now : Word) (i : Fin schedWindow) :
    WindowShift a (p.backOff now i) (p'.backOff now i) := by
  refine ⟨fun j => ?_, h.state, ?_, h.srtt, h.rttvar, ?_⟩
  · refine ⟨(h.seg j).inUse, (h.seg j).seq, (h.seg j).seqLen, fun hu => ?_, fun _ => rfl⟩
    simp only [PacketsState.backOff]
    split_ifs
    · rfl
    · exact (h.seg j).startTimer hu
  · simp only [PacketsState.backOff, h.retryTrack]
  · simp only [PacketsState.backOff, h.rto]

theorem bytesInFlight : schedulerBytesInFlight p' = schedulerBytesInFlight p := by
  unfold schedulerBytesInFlight
  congr 1
  refine Finset.sum_congr rfl fun i _ => ?_
  rw [(h.seg i).inUse]
  split_ifs with hu
  · exact (h.seg i).seqLen hu
  · rfl

theorem freeSlots : schedulerFreeSlots p' = schedulerFreeSlots p := by
  unfold schedulerFreeSlots
  congr 1
  exact funext fun i => by rw [(h.seg i).inUse]

end

end WindowShift

structure HeldShift (b : Word) (x x' : HeldSegment) : Prop where
  inUse : x'.inUse = x.inUse
  seq : x.inUse = true → x'.seq = x.seq + b
  data : x.inUse = true → x'.data = x.data

theorem HeldShift.of_free {x x' : HeldSegment} (h : x.inUse = false) (h' : x'.inUse = false) :
    HeldShift b x x' :=
  ⟨h'.trans h.symm, by simp [h], by simp [h]⟩

/-- Rows that differ only in our numbers, by `a`, and in the peer's, by `b`. -/
structure RowShift (a b : Word) (k k' : Conn) : Prop where
  box : k'.box = k.box
  inbox : k'.inbox = k.inbox
  accepted : k'.acceptedGeneration = k.acceptedGeneration
  seen : k'.waystation.seenGeneration = k.waystation.seenGeneration
  held : k.waystation.seenGeneration = k.box.generation →
    ∀ i, HeldShift b (k.waystation.slots i) (k'.waystation.slots i)
  status : k'.rapport.status = k.rapport.status
  timeWaitStarted : k'.rapport.timeWaitStarted = k.rapport.timeWaitStarted
  peerWindow : k'.rapport.peerWindow = k.rapport.peerWindow
  expectedSeq : k'.rapport.expectedSeq = k.rapport.expectedSeq + b
  ourIsn : k'.rapport.ourIsn = k.rapport.ourIsn + a
  sendSeq : k'.rapport.sendSeq = k.rapport.sendSeq + a
  ourFinSeq : k.rapport.status.awaitsFinAck = true → k'.rapport.ourFinSeq = k.rapport.ourFinSeq + a
  window : WindowShift a k.scheduler k'.scheduler

namespace RowShift

section

variable (h : RowShift a b k k')

include h

theorem setStatus {st : ConversationState}
    (hst : st.awaitsFinAck = true → k.rapport.status.awaitsFinAck = true) :
    RowShift a b (k.setStatus st) (k'.setStatus st) :=
  { h with status := rfl, ourFinSeq := fun hs => h.ourFinSeq (hst hs) }

theorem setScheduler (hw : WindowShift a p p') :
    RowShift a b (k.setScheduler p) (k'.setScheduler p') :=
  { h with window := hw }

theorem advanceSeq (n : ℕ) : RowShift a b (rapportAdvanceSeq k n) (rapportAdvanceSeq k' n) :=
  { h with
    expectedSeq := by
      simp only [rapportAdvanceSeq, h.expectedSeq]
      ac_rfl }

theorem advanceSendSeq (n : ℕ) :
    RowShift a b (rapportAdvanceSendSeq k n) (rapportAdvanceSendSeq k' n) :=
  { h with
    sendSeq := by
      simp only [rapportAdvanceSendSeq, h.sendSeq]
      ac_rfl }

theorem letGo : RowShift a b (letGo k) (letGo k') :=
  { h with
    box := congrArg lockboxRelease h.box
    status := rfl
    ourFinSeq := nofun
    window := ⟨fun _ => .of_free rfl rfl, rfl, rfl, rfl, rfl, rfl⟩ }

theorem onRst : RowShift a b (rapportOnRst k) (rapportOnRst k') := by
  unfold rapportOnRst
  rw [h.status]
  split_ifs
  · exact h
  · exact h.letGo

theorem deposit (data : List Byte) : (k'.deposit data).1 = (k.deposit data).1 ∧
      RowShift a b (k.deposit data).2 (k'.deposit data).2 := by
  have hg := k.deposit_generation data
  have hd : inboxDeposit k'.box k'.inbox data = inboxDeposit k.box k.inbox data := by
    rw [h.box, h.inbox]
  refine ⟨?_, { h with box := ?_, inbox := ?_, held := fun hs => h.held (hs.trans hg) }⟩
  all_goals simp only [Conn.deposit, hd]

theorem resetWaystation : RowShift a b k.resetWaystation k'.resetWaystation := by
  have hg : k'.box.generation = k.box.generation := by rw [h.box]
  unfold Conn.resetWaystation WayStation.resetIfStale
  rw [h.seen, hg]
  split_ifs
  · exact { h with seen := rfl, held := fun _ _ => .of_free rfl rfl }
  · exact h

theorem heldAt (hg : k.waystation.seenGeneration = k.box.generation) (seq : Word)
    (i : Fin waystationMaxPending) :
    ((k'.waystation.slots i).inUse && (k'.waystation.slots i).seq = seq + b) =
      ((k.waystation.slots i).inUse && (k.waystation.slots i).seq = seq) := by
  have hi := h.held hg i
  rw [hi.inUse]
  cases hu : (k.waystation.slots i).inUse with
  | false => rw [Bool.false_and, Bool.false_and]
  | true =>
    rw [hi.seq hu]
    simp only [BitVec.add_left_inj]

theorem nextHeld (hg : k.waystation.seenGeneration = k.box.generation) :
    k'.nextHeld = k.nextHeld := by
  unfold Conn.nextHeld
  rw [h.expectedSeq, funext (h.heldAt hg k.rapport.expectedSeq)]

theorem dropHeld (i : Fin waystationMaxPending) : RowShift a b (k.dropHeld i) (k'.dropHeld i) := by
  refine { h with held := fun hg j => ?_ }
  simp only [Conn.dropHeld, Function.update_apply]
  split_ifs
  · exact .of_free rfl rfl
  · exact h.held hg j

omit h in
theorem drainRounds (r : ℕ) (h : RowShift a b k k')
    (hg : k.waystation.seenGeneration = k.box.generation) :
    RowShift a b (drainRounds r k) (drainRounds r k') := by
  induction r generalizing k k' with
  | zero => exact h
  | succ r ih =>
    rw [Aevros.drainRounds, Aevros.drainRounds, h.nextHeld hg]
    cases hn : k.nextHeld with
    | none => exact h
    | some i =>
      have hu := (and_eq_true_iff.mp (Fin.eq_true_of_find?_eq_some hn)).1
      obtain ⟨ht, hd⟩ := h.deposit (k.waystation.slots i).data
      dsimp only
      rw [(h.held hg i).data hu, ht]
      split_ifs
      · exact hd
      · exact ih ((hd.advanceSeq _).dropHeld i) (hg.trans (k.deposit_generation _).symm)

theorem deliver (data : List Byte) : RowShift a b (k.deliver data) (k'.deliver data) := by
  obtain ⟨ht, hd⟩ := h.deposit data
  unfold Conn.deliver
  dsimp only
  rw [ht]
  split_ifs
  · exact h
  · exact ((hd.advanceSeq _).resetWaystation).drainRounds _ (WayStation.resetIfStale_seen _ _)
  · exact hd

theorem hold (seq : Word) (data : List Byte) :
    RowShift a b (waystationHold k seq data).2 (waystationHold k' (seq + b) data).2 := by
  have hr := h.resetWaystation
  have hg : k.resetWaystation.waystation.seenGeneration = k.box.generation :=
    WayStation.resetIfStale_seen _ _
  have hfree : (fun i => !(k'.resetWaystation.waystation.slots i).inUse) =
      fun i => !(k.resetWaystation.waystation.slots i).inUse :=
    funext fun i => by rw [(hr.held hg i).inUse]
  unfold waystationHold
  dsimp only
  rw [funext (hr.heldAt hg seq), hfree]
  split_ifs
  · exact h
  · exact hr
  · cases Fin.find? fun i => !(k.resetWaystation.waystation.slots i).inUse with
    | none => exact hr
    | some i =>
      refine { hr with held := fun _ j => ?_ }
      simp only [Function.update_apply]
      split_ifs
      · exact ⟨rfl, fun _ => rfl, fun _ => rfl⟩
      · exact hr.held hg j

theorem enterTimeWait (now : Word) : RowShift a b (enterTimeWait now k) (enterTimeWait now k') :=
  { h with status := rfl, timeWaitStarted := rfl, ourFinSeq := nofun }

theorem isnAcked_iff (ackNum : Word) :
    ackNum + a ≠ k'.rapport.ourIsn + 1 ↔ ackNum ≠ k.rapport.ourIsn + 1 := by
  have he : k'.rapport.ourIsn + 1 = k.rapport.ourIsn + 1 + a := by
    rw [h.ourIsn]
    ac_rfl
  rw [he, ne_eq, BitVec.add_left_inj]

theorem finAcked_iff (hs : k.rapport.status.awaitsFinAck = true) {ackNum : Word}
    (hc : SameSide a (k.rapport.ourFinSeq + 1) ackNum) :
    k'.rapport.ourFinSeq + 1 ≤ ackNum + a ↔ k.rapport.ourFinSeq + 1 ≤ ackNum := by
  have hf : k'.rapport.ourFinSeq + 1 = k.rapport.ourFinSeq + 1 + a := by
    rw [h.ourFinSeq hs]
    ac_rfl
  rw [hf, hc.le_iff]

theorem onAck (now ackNum : Word)
    (hc : k.rapport.status.awaitsFinAck = true → SameSide a (k.rapport.ourFinSeq + 1) ackNum) :
    RowShift a b (rapportOnAck now k ackNum) (rapportOnAck now k' (ackNum + a)) := by
  have hst := h.status
  cases hs : k.rapport.status with
  | synReceived =>
    simp only [rapportOnAck, hs, hst, h.isnAcked_iff]
    split_ifs
    · exact h
    · exact h.setStatus nofun
  | finWait1 =>
    have hw : k.rapport.status.awaitsFinAck = true := by rw [hs]; rfl
    simp only [rapportOnAck, hs, hst, h.finAcked_iff hw (hc hw)]
    split_ifs
    · exact h.setStatus nofun
    · exact h
  | closing =>
    have hw : k.rapport.status.awaitsFinAck = true := by rw [hs]; rfl
    simp only [rapportOnAck, hs, hst, h.finAcked_iff hw (hc hw)]
    split_ifs
    · exact h.enterTimeWait now
    · exact h
  | lastAck =>
    have hw : k.rapport.status.awaitsFinAck = true := by rw [hs]; rfl
    simp only [rapportOnAck, hs, hst, h.finAcked_iff hw (hc hw)]
    split_ifs
    · exact h.letGo
    · exact h
  | _ =>
    simp only [rapportOnAck, hs, hst]
    exact h

theorem onFin (now : Word) : RowShift a b (rapportOnFin now k) (rapportOnFin now k') := by
  have hst := h.status
  cases hs : k.rapport.status with
  | established =>
    simp only [rapportOnFin, hs, hst]
    exact (h.advanceSeq 1).setStatus nofun
  | finWait1 =>
    have hw : (rapportAdvanceSeq k 1).rapport.status.awaitsFinAck = true := by
      rw [show (rapportAdvanceSeq k 1).rapport.status = .finWait1 from hs]
      rfl
    simp only [rapportOnFin, hs, hst]
    exact (h.advanceSeq 1).setStatus fun _ => hw
  | finWait2 =>
    simp only [rapportOnFin, hs, hst]
    exact (h.advanceSeq 1).enterTimeWait now
  | _ =>
    simp only [rapportOnFin, hs, hst]
    exact h

theorem ack (now acked : Word) : RowShift a b (k.ack now acked).2 (k'.ack now (acked + a)).2 :=
  h.setScheduler (h.window.ack now acked)

end

end RowShift

def Segment.shift (a b : Word) (g : Segment) : Segment :=
  { g with seq := g.seq + b, ack := g.ack + a }

section

variable (a b : Word) (g : Segment)

namespace Segment

@[simp] theorem shift_seq : (g.shift a b).seq = g.seq + b := rfl
@[simp] theorem shift_ack : (g.shift a b).ack = g.ack + a := rfl
@[simp] theorem shift_data : (g.shift a b).data = g.data := rfl
@[simp] theorem shift_window : (g.shift a b).window = g.window := rfl
@[simp] theorem shift_isAck : (g.shift a b).isAck = g.isAck := rfl
@[simp] theorem shift_fin : (g.shift a b).fin = g.fin := rfl
@[simp] theorem shift_rst : (g.shift a b).rst = g.rst := rfl

end Segment

end

/-- The shift wraps around for both sides of each unsigned comparison, or for neither. -/
def Conn.ComparesAlike (a b : Word) (k : Conn) (g : Segment) : Prop :=
  (g.seq = k.rapport.expectedSeq → g.rst = false → g.isAck = true →
    k.rapport.status.awaitsFinAck = true → SameSide a (k.rapport.ourFinSeq + 1) g.ack) ∧
  (g.seq ≠ k.rapport.expectedSeq → (g.isAck = true → SameSide a g.ack k.rapport.sendSeq) ∧
    (0 < g.data.length → SameSide b g.seq k.rapport.expectedSeq ∧
      (g.seq < k.rapport.expectedSeq →
        SameSide b (g.seq + BitVec.ofNat 32 g.data.length) k.rapport.expectedSeq)))

instance (a b : Word) (k : Conn) (g : Segment) : Decidable (k.ComparesAlike a b g) :=
  inferInstanceAs (Decidable (_ ∧ _))

namespace RowShift

variable {g : Segment}

section

variable (h : RowShift a b k k')

include h

theorem outOfOrder (now : Word) (hack : g.isAck = true → SameSide a g.ack k.rapport.sendSeq)
    (hseq : 0 < g.data.length → SameSide b g.seq k.rapport.expectedSeq ∧
      (g.seq < k.rapport.expectedSeq →
        SameSide b (g.seq + BitVec.ofNat 32 g.data.length) k.rapport.expectedSeq)) :
    RowShift a b (k.outOfOrder now g).2 (k'.outOfOrder now (g.shift a b)).2 := by
  have hearly : RowShift a b (k.earlyAck now g).2 (k'.earlyAck now (g.shift a b)).2 := by
    unfold Conn.earlyAck
    rw [shift_isAck, shift_ack, h.sendSeq]
    cases hi : g.isAck with
    | false => exact h
    | true =>
      simp only [(hack hi).le_iff]
      split_ifs
      · exact h.ack now g.ack
      · exact h
  have hstale : 0 < g.data.length → rapportSeqIsStaleRetransmit k' (g.seq + b) g.data.length =
      rapportSeqIsStaleRetransmit k g.seq g.data.length := by
    intro hd
    obtain ⟨hseq, hend⟩ := hseq hd
    have he : g.seq + b + BitVec.ofNat 32 g.data.length =
        g.seq + BitVec.ofNat 32 g.data.length + b := by ac_rfl
    unfold rapportSeqIsStaleRetransmit
    rw [h.expectedSeq, he]
    by_cases hlt : g.seq < k.rapport.expectedSeq
    · simp only [hseq.lt_iff, (hend hlt).le_iff]
    · simp only [hseq.lt_iff, hlt, decide_false, Bool.false_and]
  unfold Conn.outOfOrder
  rw [shift_seq, shift_data]
  by_cases hd : 0 < g.data.length
  · rw [hstale hd]
    split_ifs
    · exact hearly
    · exact hearly.hold g.seq g.data
  -- without payload a stale segment and an early one differ in the log line only
  · simpa only [hd, if_false, ite_self] using hearly

theorem inOrder (now : Word)
    (hc : g.isAck = true → k.rapport.status.awaitsFinAck = true → SameSide a (k.rapport.ourFinSeq +
      1) g.ack) : RowShift a b (k.inOrder now g).2 (k'.inOrder now (g.shift a b)).2 := by
  have ht : RowShift a b (k.takeAck now g).2 (k'.takeAck now (g.shift a b)).2 := by
    unfold Conn.takeAck
    rw [shift_isAck]
    split_ifs with hi
    · exact (h.onAck now g.ack (hc hi)).ack now g.ack
    · exact h
  unfold Conn.inOrder
  rw [shift_fin]
  split_ifs
  · exact (ht.deliver g.data).onFin now
  · exact ht.deliver g.data

theorem receive (now : Word) (hc : k.ComparesAlike a b g) :
    RowShift a b (conversationReceive now k g).2 (conversationReceive now k' (g.shift a b)).2 := by
  have hw : RowShift a b (rapportSetPeerWindow k g.window) (rapportSetPeerWindow k' g.window) :=
    { h with peerWindow := rfl }
  unfold conversationReceive
  dsimp only
  rw [shift_seq, shift_window, shift_rst]
  by_cases hs : g.seq = k.rapport.expectedSeq
  · have hn : ¬ g.seq ≠ (rapportSetPeerWindow k g.window).rapport.expectedSeq := not_not.mpr hs
    have hn' : ¬ g.seq + b ≠ (rapportSetPeerWindow k' g.window).rapport.expectedSeq := by
      rw [hw.expectedSeq, ne_eq, BitVec.add_left_inj]
      exact hn
    split_ifs with hr
    · exact hw.onRst
    · exact hw.inOrder now (hc.1 hs (by simpa using hr))
  · have hn : g.seq ≠ (rapportSetPeerWindow k g.window).rapport.expectedSeq := hs
    have hn' : g.seq + b ≠ (rapportSetPeerWindow k' g.window).rapport.expectedSeq := by
      rw [hw.expectedSeq, ne_eq, BitVec.add_left_inj]
      exact hn
    obtain ⟨hack, hseq⟩ := hc.2 hs
    rw [if_pos hn, if_pos hn']
    exact hw.outOfOrder now hack hseq

end

end RowShift

structure Office.Alike (o o' : Office) : Prop where
  ticks : o'.ticks = o.ticks
  atlas : o'.atlas = o.atlas
  rolodex : o'.rolodex = o.rolodex
  pass : (o'.bailiff.reclaimExpired o'.ticks).freePass.isSome =
    (o.bailiff.reclaimExpired o.ticks).freePass.isSome

theorem Office.Alike.refl (o : Office) : o.Alike o := ⟨rfl, rfl, rfl, rfl⟩

/-- What a dispatched segment leads to, up to the frame that carries it. -/
structure SameDispatch (a b : Word) (r r' : Option (Word × Frame) × Office × Conn) : Prop where
  issued : r'.1.isSome = r.1.isSome
  length : ∀ x ∈ r.1, ∀ x' ∈ r'.1, x'.2.length = x.2.length
  ticks : r.1.isSome = true → r'.2.1.ticks = r.2.1.ticks
  row : RowShift a b r.2.2 r'.2.2

theorem SameDispatch.cases {r r' : Option (Word × Frame) × Office × Conn}
    (h : SameDispatch a b r r') : (r = (none, r.2) ∧ r' = (none, r'.2)) ∨
      ∃ s s', r = (some s, r.2) ∧ r' = (some s', r'.2) := by
  obtain ⟨_ | s, q⟩ := r <;> obtain ⟨_ | s', q'⟩ := r'
  · exact .inl ⟨rfl, rfl⟩
  · cases h.issued
  · cases h.issued
  · exact .inr ⟨s, s', rfl, rfl⟩

theorem bailiffRequestPass_ticks (o : Office) (frame : Frame) :
    (bailiffRequestPass o frame).2.ticks = o.ticks := by
  unfold bailiffRequestPass
  split_ifs
  · rfl
  · dsimp only
    split <;> rfl

theorem Office.Alike.issued {o o' : Office} (ho : o.Alike o') {frame frame' : Frame}
    (hf : frame'.length = frame.length) :
    (bailiffRequestPass o' frame').1.isSome = (bailiffRequestPass o frame).1.isSome := by
  have hp := ho.pass
  unfold bailiffRequestPass
  rw [hf]
  split_ifs
  · rfl
  · dsimp only
    generalize (o.bailiff.reclaimExpired o.ticks).freePass = free at hp ⊢
    generalize (o'.bailiff.reclaimExpired o'.ticks).freePass = free' at hp ⊢
    cases free <;> cases free' <;> simp_all

namespace RowShift

variable {o o' : Office}

section

variable (h : RowShift a b k k')

include h

theorem receiveWindow :
    RowShift a b (waystationReceiveWindow k).2 (waystationReceiveWindow k').2 := by
  have hr := h.resetWaystation
  refine { hr with inbox := ?_ }
  simp only [waystationReceiveWindow, hr.box, hr.inbox]

theorem dispatch (ho : o.Alike o') (flags : Byte) (seq ack seq' ack' : Word) (payload : List Byte)
    (me : Identity) :
    SameDispatch a b (conversationDispatch o k flags seq ack payload me)
      (conversationDispatch o' k' flags seq' ack' payload me) := by
  have hnone : SameDispatch a b (none, o, k) (none, o', k') := ⟨rfl, by simp, by simp, h⟩
  unfold conversationDispatch
  rw [h.box, ho.atlas]
  split_ifs
  · exact hnone
  · exact hnone
  · exact hnone
  · cases atlasLookup o.atlas k.box.remoteIp with
    | none => exact hnone
    | some nextHop =>
      dsimp only
      rw [ho.rolodex]
      cases rolodexLookup o.rolodex nextHop with
      | none =>
        simp only [isNone_none, if_true]
        exact ⟨rfl, by simp, by simp, h.receiveWindow⟩
      | some mac =>
        simp only [isNone_some, false_eq_true, if_false]
        refine ⟨?_, ?_, fun _ => ?_, h.receiveWindow⟩
        · rw [isSome_map, isSome_map]
          exact ho.issued (by rw [length_tcpFrame, length_tcpFrame])
        · intro x hx x' hx'
          obtain ⟨_, _, rfl⟩ := mem_map.mp hx
          obtain ⟨_, _, rfl⟩ := mem_map.mp hx'
          rw [length_tcpFrame, length_tcpFrame]
        · rw [bailiffRequestPass_ticks, bailiffRequestPass_ticks]
          exact ho.ticks

theorem dispatchTracked (ho : o.Alike o') (flags : Byte) (seq ack ack' : Word) (payload : List Byte)
    (seqLen : ℕ) (me : Identity) :
    SameDispatch a b (dispatchTracked o k flags seq ack payload seqLen me)
      (dispatchTracked o' k' flags (seq + a) ack' payload seqLen me) := by
  have hd := h.dispatch ho flags seq ack (seq + a) ack' payload me
  unfold Aevros.dispatchTracked
  rcases hd.cases with ⟨hr, hr'⟩ | ⟨sent, sent', hr, hr'⟩ <;> rw [hr, hr'] at hd ⊢
  · exact hd
  · refine ⟨rfl, hd.length, hd.ticks, hd.row.setScheduler ?_⟩
    rw [hd.ticks rfl]
    exact hd.row.window.track _ seq seqLen (hd.length sent rfl sent' rfl)

theorem sendAllowed (n : ℕ) : rapportSendAllowed k' n = rapportSendAllowed k n := by
  rw [rapportSendAllowed, rapportSendAllowed, h.window.bytesInFlight, h.peerWindow]

theorem send (ho : o.Alike o') (data : List Byte) (me : Identity) :
    RowShift a b (switchboardSend o k data me).2.2 (switchboardSend o' k' data me).2.2 := by
  rw [switchboardSend, switchboardSend]
  unfold conversationDispatchData
  rw [h.status, h.window.freeSlots, h.sendAllowed, h.sendSeq]
  split_ifs
  · exact h
  · exact h
  · exact h
  · exact h
  · have hd := h.dispatchTracked ho flagAck k.rapport.sendSeq k.rapport.expectedSeq
      k'.rapport.expectedSeq data data.length me
    rcases hd.cases with ⟨hr, hr'⟩ | ⟨sent, sent', hr, hr'⟩ <;> rw [hr, hr']
    · exact hd.row
    · exact hd.row.advanceSendSeq data.length

theorem initiateClose (finSeq : Word) :
    RowShift a b (rapportInitiateClose k finSeq) (rapportInitiateClose k' (finSeq + a)) := by
  unfold rapportInitiateClose
  dsimp only
  rw [h.status]
  split <;> exact { h with status := rfl, ourFinSeq := fun _ => rfl }

theorem close (ho : o.Alike o') (me : Identity) :
    RowShift a b (switchboardClose o k me).2.2 (switchboardClose o' k' me).2.2 := by
  rw [switchboardClose, switchboardClose]
  unfold conversationDispatchFin
  rw [h.status, h.window.bytesInFlight, h.sendSeq]
  split_ifs
  · exact h
  · exact h
  · have hd := h.dispatchTracked ho (flagFin ||| flagAck) k.rapport.sendSeq
      k.rapport.expectedSeq k'.rapport.expectedSeq [] 1 me
    rcases hd.cases with ⟨hr, hr'⟩ | ⟨sent, sent', hr, hr'⟩ <;> rw [hr, hr']
    · exact hd.row
    · exact (hd.row.advanceSendSeq 1).initiateClose k.rapport.sendSeq

theorem recv (maxLen : ℕ) :
    RowShift a b (switchboardRecv k maxLen).2 (switchboardRecv k' maxLen).2 := by
  unfold switchboardRecv
  rw [h.accepted, h.box]
  split_ifs
  · exact h
  · have hr : inboxRead k'.box k'.inbox maxLen = inboxRead k.box k.inbox maxLen := by
      rw [h.box, h.inbox]
    obtain ⟨m, -, hbox⟩ := k.read_box maxLen
    refine { h with box := ?_, inbox := ?_, held := fun hs => h.held ?_ }
    · simp only [Conn.read, hr]
    · simp only [Conn.read, hr]
    · rwa [hbox] at hs

theorem timer (now : Word) : RowShift a b (schedulerTimer now k).2 (schedulerTimer now k').2 := by
  have hw := h.window
  unfold schedulerTimer
  dsimp only
  rw [hw.state, hw.oldest]
  split
  · exact h
  · cases ho : k.scheduler.oldest with
    | none => exact h.setScheduler (hw.setState .idle)
    | some i =>
      have hu := PacketsState.oldest_inUse ho
      dsimp only
      rw [(hw.seg i).startTimer hu, hw.rto, hw.retryTrack]
      split_ifs
      · exact h
      · exact (h.setScheduler (hw.cleared .failure)).onRst
      · exact h.setScheduler (hw.backOff now i)

end

end RowShift

/-- The events of a connection after its SYN, and their counterparts in the shifted run. -/
inductive Shifts (a b : Word) : ConnEvent → ConnEvent → Prop
  | segment (now : Word) (g : Segment) : Shifts a b (.segment now g) (.segment now (g.shift a b))
  | accept : Shifts a b .accept .accept
  | send {o o' : Office} (ho : o.Alike o') (data : List Byte) (me : Identity) :
      Shifts a b (.send o data me) (.send o' data me)
  | close {o o' : Office} (ho : o.Alike o') (me : Identity) :
      Shifts a b (.close o me) (.close o' me)
  | recv (maxLen : ℕ) : Shifts a b (.recv maxLen) (.recv maxLen)
  | expire : Shifts a b .expire .expire
  | timer (now : Word) : Shifts a b (.timer now) (.timer now)

/-- No unsigned comparison of the event has the shift wrap around on one side only. -/
def ConnEvent.ComparesAlike (a b : Word) (k : Conn) : ConnEvent → Prop
  | .segment _ g => k.ComparesAlike a b g
  | _ => True

theorem RowShift.step (h : RowShift a b k k') {e e' : ConnEvent} (he : Shifts a b e e')
    (hc : e.ComparesAlike a b k) : RowShift a b (k.step e) (k'.step e') := by
  cases he with
  | segment now g => exact h.receive now hc
  | accept => exact { h with accepted := congrArg LockboxEntry.generation h.box }
  | send ho data me => exact h.send ho data me
  | close ho me => exact h.close ho me
  | recv maxLen => exact h.recv maxLen
  | expire =>
    refine { h with box := congrArg lockboxRelease h.box, status := rfl, ourFinSeq := ?_ }
    exact nofun
  | timer now => exact h.timer now

/-- No segment is tracked, and the holding area has not seen the next generation. -/
structure Conn.Clean (k : Conn) : Prop where
  window : k.scheduler.Empty
  held : k.waystation.seenGeneration ≠ k.box.generation + 1

theorem Conn.Clean.onSyn (hk : k.Clean) (u : Tuple) (peerIsn ourIsn : Word) :
    RowShift a b (rapportOnSyn (k.claim u) peerIsn ourIsn)
      (rapportOnSyn (k.claim u) (peerIsn + b) (ourIsn + a)) where
  box := rfl
  inbox := rfl
  accepted := rfl
  seen := rfl
  held hg := absurd hg hk.held
  status := rfl
  timeWaitStarted := rfl
  peerWindow := rfl
  expectedSeq := by simp only [rapportOnSyn]; ac_rfl
  ourIsn := rfl
  sendSeq := by simp only [rapportOnSyn]; ac_rfl
  ourFinSeq hw := by cases hw
  window := .of_empty hk.window

structure SameProgress (k k' : Conn) : Prop where
  status : k'.rapport.status = k.rapport.status
  box : k'.box = k.box
  inbox : k'.inbox = k.inbox
  tracked : ∀ i, (k'.scheduler.seg i).inUse = (k.scheduler.seg i).inUse

/-- Shifted runs make the same progress if no comparison has one side wrap around alone. -/
theorem shifted_run_makes_same_progress (a b : Word) (k : Conn) (hk : k.Clean) (u : Tuple)
    (peerIsn ourIsn : Word) (o o' : Office) (ho : o.Alike o') (me : Identity)
    (es es' : List ConnEvent) (hes : Forall₂ (Shifts a b) es es')
    (hc : Along Conn.step (fun k e => e.ComparesAlike a b k)
      (k.step (.syn u peerIsn ourIsn o me)) es) (n : ℕ) :
    SameProgress (run Conn.step (k.step (.syn u peerIsn ourIsn o me)) (es.take n))
      (run Conn.step (k.step (.syn u (peerIsn + b) (ourIsn + a) o' me)) (es'.take n)) := by
  have hstart : RowShift a b (k.step (.syn u peerIsn ourIsn o me))
      (k.step (.syn u (peerIsn + b) (ourIsn + a) o' me)) :=
    ((hk.onSyn u peerIsn ourIsn).dispatchTracked ho _ _ _ _ [] 1 me).row
  have htake : Forall₂ (Shifts a b) (es.take n) (es'.take n) := forall₂_take n hes
  have h := run_related (fun _ _ _ _ h he hp => h.step he hp) hstart htake (hc.take n)
  exact ⟨h.status, h.box, h.inbox, fun i => (h.window.seg i).inUse⟩

def sampleTuple : Tuple := ⟨80, samplePeer, 1001, 6⟩

def sampleMe : Identity := ⟨sampleOffice.frontdesk.mac, sampleIp⟩

def sampleAck : Segment := ⟨1001, 80, 8, 101, 0x10, 4096, []⟩

theorem shifted_run_makes_same_progress_sample : SameProgress
      (run Conn.step (Conn.step {} (.syn sampleTuple 7 100 sampleOffice sampleMe))
        ([.segment 0 sampleAck, .close sampleOffice sampleMe, .segment 0 sampleAck].take 3))
      (run Conn.step (Conn.step {} (.syn sampleTuple (7 + 9) (100 + 5) sampleOffice sampleMe))
        ([.segment 0 (sampleAck.shift 5 9), .close sampleOffice sampleMe,
          .segment 0 (sampleAck.shift 5 9)].take 3)) := by
  refine shifted_run_makes_same_progress 5 9 {} ⟨fun _ => rfl, by decide⟩ sampleTuple 7 100
    sampleOffice sampleOffice (.refl _) sampleMe _ _ ?_ ?_ 3
  · exact .cons (.segment 0 sampleAck) (.cons (.close (.refl _) sampleMe)
      (.cons (.segment 0 sampleAck) .nil))
  · refine ⟨?_, trivial, ?_, trivial⟩ <;> change Conn.ComparesAlike 5 9 _ sampleAck <;>
      decide +kernel

theorem old_ack_taken_for_fin_after_shift :
    (run Conn.step {} [.syn sampleTuple 7 100 sampleOffice sampleMe, .segment 0 sampleAck,
      .close sampleOffice sampleMe, .segment 0 sampleAck]).rapport.status = .finWait1 ∧
    (run Conn.step {} [.syn sampleTuple 7 (100 + 0xFFFFFF9A) sampleOffice sampleMe,
      .segment 0 (sampleAck.shift 0xFFFFFF9A 0), .close sampleOffice sampleMe,
      .segment 0 (sampleAck.shift 0xFFFFFF9A 0)]).rapport.status = .finWait2 := by
  decide +kernel

end Aevros
