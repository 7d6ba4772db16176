import Aevros.Guarantees.ActiveOpen
import Aevros.Tcp.Window

/-! # Acknowledgements and the window

A segment reaches the window on three ways with different checks. It ought to free the segments it
covers if it acknowledges what was sent, and nothing otherwise.
-/

namespace Aevros

open Serial

variable {k : Conn} {g : Segment} {u now : Word}

namespace Conn

section

variable (now : Word)

/-- What `conversation_handle` does to the row of the connection that a segment is for. -/
def handle (k : Conn) (g : Segment) : Conn :=
  if k.rapport.status = .synSent then conversationAnswer k g
  else if g.syn then k
  else (conversationReceive now k g).2

/-- The next number to send. `send_seq` has its value only when SYN_SENT is over. -/
def nextSeq (k : Conn) : Word :=
  if k.rapport.status = .synSent then k.rapport.ourIsn + 1 else k.rapport.sendSeq

/-- The segments in flight lie between the number `u` and the next one to send. -/
structure Lined (k : Conn) (u : Word) : Prop where
  armed : k.scheduler.Armed
  oldest : ∀ i, k.scheduler.oldest = some i → (k.scheduler.seg i).seq = u
  sent : ∀ i, (k.scheduler.seg i).inUse = true →
    ahead u (k.scheduler.seg i).seq + (k.scheduler.seg i).seqLen ≤ ahead u k.nextSeq
  half : ahead u k.nextSeq < 2 ^ 31

/-- The acknowledgement is for numbers that were sent and covers segment `i`. -/
def Covers (k : Conn) (u : Word) (g : Segment) (i : Fin schedWindow) : Prop :=
  ahead u g.ack ≤ ahead u k.nextSeq ∧ ahead u (k.scheduler.seg i).ends ≤ ahead u g.ack

/-- The acknowledgement is for numbers that were not sent. -/
def Overshoots (k : Conn) (g : Segment) : Prop :=
  0 < ahead k.nextSeq g.ack ∧ ahead k.nextSeq g.ack < 2 ^ 31

/-- What is covered is not tracked any more, and numbers that were not sent free nothing. -/
def AckExact (k k' : Conn) (u : Word) (g : Segment) : Prop :=
  (∀ i, (k'.scheduler.seg i).inUse = true → ¬ k.Covers u g i) ∧ (k.Overshoots g → g.rst = false →
      ∀ i, (k.scheduler.seg i).inUse = true → (k'.scheduler.seg i).inUse = true)

section

variable (k : Conn)

section

variable (g : Segment)

def Hears : Prop :=
  k.rapport.status ≠ .synSent ∧ g.syn = false ∧
    (g.seq = k.rapport.expectedSeq ∨ g.ack ≤ k.rapport.sendSeq)

/-- A reset, or what the state machine takes for the acknowledgement of our last FIN. -/
def Ends : Prop :=
  k.rapport.status = .synSent ∧ g.rst = true ∨
    k.rapport.status ≠ .synSent ∧ g.syn = false ∧ g.seq = k.rapport.expectedSeq ∧
      (g.rst = true ∨ k.rapport.status = .lastAck ∧ k.rapport.ourFinSeq + 1 ≤ g.ack)

theorem scheduler_outOfOrder :
    (k.outOfOrder now g).2.scheduler = (k.earlyAck now g).2.scheduler := by
  obtain ⟨w, hw⟩ := k.outOfOrder_snd now g
  rw [hw]

theorem scheduler_rapportOnFin : (rapportOnFin now k).scheduler = k.scheduler := by
  unfold rapportOnFin
  split <;> rfl

theorem scheduler_inOrder : (k.inOrder now g).2.scheduler = (k.takeAck now g).2.scheduler := by
  obtain ⟨n, hn, -⟩ := delivered_deliver (k.takeAck now g).2 g.data
  unfold inOrder
  split_ifs
  · rw [scheduler_rapportOnFin, hn.scheduler]
  · exact hn.scheduler

end

theorem scheduler_rapportOnAck (ackNum : Word) : (rapportOnAck now k ackNum).scheduler =
      if k.rapport.status = .lastAck ∧ k.rapport.ourFinSeq + 1 ≤ ackNum then
        schedulerCancel k.scheduler
      else k.scheduler := by
  by_cases hlast : k.rapport.status = .lastAck
  · simp only [rapportOnAck, hlast, true_and]
    split_ifs <;> rfl
  · have hnot : ¬ (k.rapport.status = .lastAck ∧ k.rapport.ourFinSeq + 1 ≤ ackNum) :=
      fun h => hlast h.1
    unfold rapportOnAck
    split
    case h_4 hs => exact absurd hs hlast
    all_goals first | rfl | (split_ifs <;> rfl)

end

theorem scheduler_answer (hrst : g.rst = false) :
    (conversationAnswer k g).scheduler = k.scheduler := by
  unfold conversationAnswer rapportOnSynAck
  rw [if_neg (by simp [hrst])]
  split_ifs <;> rfl

theorem scheduler_receive_outOfOrder (hseq : g.seq ≠ k.rapport.expectedSeq)
    (hack : g.isAck = true) : (conversationReceive now k g).2.scheduler =
      if g.ack ≤ k.rapport.sendSeq then (schedulerAck now k.scheduler g.ack).2
      else k.scheduler := by
  have hreceive : conversationReceive now k g =
      (rapportSetPeerWindow k g.window).outOfOrder now g := if_pos hseq
  rw [hreceive, scheduler_outOfOrder, earlyAck, hack]
  change (if decide (g.ack ≤ k.rapport.sendSeq) = true then _ else _ :
    Option Frame × Conn).2.scheduler = _
  simp only [decide_eq_true_eq]
  split_ifs <;> rfl

theorem scheduler_receive_inOrder (hseq : g.seq = k.rapport.expectedSeq)
    (hrst : g.rst = false) (hack : g.isAck = true) :
    (conversationReceive now k g).2.scheduler = (schedulerAck now
      (if k.rapport.status = .lastAck ∧ k.rapport.ourFinSeq + 1 ≤ g.ack then
        schedulerCancel k.scheduler
      else k.scheduler) g.ack).2 := by
  have hreceive : conversationReceive now k g =
      (rapportSetPeerWindow k g.window).inOrder now g := by
    unfold conversationReceive
    rw [if_neg (not_not.mpr (by exact hseq)), if_neg (by simp [hrst])]
  rw [hreceive, scheduler_inOrder, takeAck, if_pos hack]
  change (schedulerAck now (rapportOnAck now _ g.ack).scheduler g.ack).2 = _
  rw [scheduler_rapportOnAck]
  rfl

end

theorem receive_rst (hopen : k.rapport.status ≠ .closed) (hseq : g.seq = k.rapport.expectedSeq)
    (hrst : g.rst = true) : (conversationReceive now k g).2.scheduler.Empty := by
  have hreceive : (conversationReceive now k g).2 = letGo (rapportSetPeerWindow k g.window) := by
    unfold conversationReceive
    rw [if_neg (not_not.mpr (by exact hseq)), if_pos hrst, rapportOnRst, if_neg (by exact hopen)]
  rw [hreceive]
  exact schedulerCancel_empty _

theorem handle_window (now : Word) (hopen : k.rapport.status ≠ .closed) (hack : g.isAck = true) :
    (k.Ends g ∧ (k.handle now g).scheduler.Empty) ∨ (¬ k.Ends g ∧ k.Hears g ∧
        (k.handle now g).scheduler = (schedulerAck now k.scheduler g.ack).2) ∨
      (¬ k.Ends g ∧ ¬ k.Hears g ∧ (k.handle now g).scheduler = k.scheduler) := by
  unfold handle Ends Hears
  by_cases hsent : k.rapport.status = .synSent
  · rw [if_pos hsent]
    cases hrst : g.rst with
    | true =>
      rw [conversationAnswer, if_pos hrst, rapportOnRst, if_neg hopen]
      exact .inl ⟨.inl ⟨hsent, rfl⟩, schedulerCancel_empty _⟩
    | false => exact .inr (.inr ⟨by simp [hsent], by simp [hsent], scheduler_answer hrst⟩)
  · rw [if_neg hsent]
    cases hsyn : g.syn with
    | true => exact .inr (.inr ⟨by simp [hsent], by simp, rfl⟩)
    | false =>
      by_cases hseq : g.seq = k.rapport.expectedSeq
      · cases hrst : g.rst with
        | true =>
          exact .inl ⟨.inr ⟨hsent, rfl, hseq, .inl rfl⟩, receive_rst hopen hseq hrst⟩
        | false =>
          have hwindow := scheduler_receive_inOrder now hseq hrst hack
          split_ifs at hwindow with hlast
          · refine .inl ⟨.inr ⟨hsent, rfl, hseq, .inr hlast⟩, hwindow ▸ ?_⟩
            exact (schedulerAck_shrinks now _ g.ack).empty (schedulerCancel_empty _)
          · refine .inr (.inl ⟨?_, ⟨hsent, rfl, .inl hseq⟩, hwindow⟩)
            rintro (⟨h, -⟩ | ⟨-, -, -, h | h⟩)
            · exact hsent h
            · cases h
            · exact hlast h
      · have hwindow := scheduler_receive_outOfOrder now hseq hack
        have hends : ¬ (k.rapport.status = .synSent ∧ g.rst = true ∨
            k.rapport.status ≠ .synSent ∧ false = false ∧ g.seq = k.rapport.expectedSeq ∧
              (g.rst = true ∨ k.rapport.status = .lastAck ∧ k.rapport.ourFinSeq + 1 ≤ g.ack)) := by
          rintro (⟨h, -⟩ | ⟨-, -, h, -⟩)
          · exact hsent h
          · exact hseq h
        split_ifs at hwindow with hle
        · exact .inr (.inl ⟨hends, ⟨hsent, rfl, .inr hle⟩, hwindow⟩)
        · refine .inr (.inr ⟨hends, ?_, hwindow⟩)
          rintro ⟨-, -, h | h⟩
          · exact hseq h
          · exact hle h

/-- What is covered reaches the scheduler or ends the connection; what overshoots does neither. -/
def AcksWell (k : Conn) (u : Word) (g : Segment) : Prop :=
  (∀ i, (k.scheduler.seg i).inUse = true → k.Covers u g i → k.Hears g ∨ k.Ends g) ∧
    (k.Overshoots g → g.rst = false → ∀ i, (k.scheduler.seg i).inUse = true →
      ¬ k.Ends g ∧ (k.Hears g → 2 ^ 31 ≤ ahead (k.scheduler.seg i).ends g.ack))

theorem Lined.not_seqBefore (h : k.Lined u) {i : Fin schedWindow}
    (hused : (k.scheduler.seg i).inUse = true) (hcovers : k.Covers u g i) :
    seqBefore g.ack (k.scheduler.seg i).ends = false := by
  have hsent := h.sent i hused
  have hhalf := h.half
  have hends : ahead u (k.scheduler.seg i).ends =
      ahead u (k.scheduler.seg i).seq + (k.scheduler.seg i).seqLen := ahead_add (by omega)
  rw [← Bool.not_eq_true, seqBefore_iff_ahead (hcovers.1.trans_lt hhalf) (by omega)]
  exact Nat.not_lt.mpr hcovers.2

theorem ackExact_handle_iff (hopen : k.rapport.status ≠ .closed) (hack : g.isAck = true)
    (h : k.Lined u) : AckExact k (k.handle now g) u g ↔ k.AcksWell u g := by
  rcases handle_window now hopen hack with ⟨hends, hempty⟩ |
    ⟨hends, hhears, heq⟩ | ⟨hends, hhears, heq⟩
  · constructor
    · intro hexact
      refine ⟨fun _ _ _ => .inr hends, fun hover hrst i hused => ?_⟩
      have hstays := hexact.2 hover hrst i hused
      simp [hempty i] at hstays
    · intro hwell
      refine ⟨fun i hused => ?_, fun hover hrst i hused => ?_⟩
      · simp [hempty i] at hused
      · exact absurd hends (hwell.2 hover hrst i hused).1
  · unfold AckExact
    simp only [heq, PacketsState.inUse_ack h.armed]
    constructor
    · intro hexact
      refine ⟨fun _ _ _ => .inl hhears, fun hover hrst i hused => ⟨hends, fun _ => ?_⟩⟩
      exact (seqBefore_iff _ _).mp (hexact.2 hover hrst i hused).2
    · intro hwell
      refine ⟨fun i hused hcovers => ?_, fun hover hrst i hused => ⟨hused, ?_⟩⟩
      · simp [h.not_seqBefore hused.1 hcovers] at hused
      · exact (seqBefore_iff _ _).mpr ((hwell.2 hover hrst i hused).2 hhears)
  · unfold AckExact
    rw [heq]
    constructor
    · intro hexact
      refine ⟨fun i hused hcovers => absurd hcovers (hexact.1 i hused), ?_⟩
      exact fun _ _ _ _ => ⟨hends, fun hh => absurd hh hhears⟩
    · intro hwell
      refine ⟨fun i hused hcovers => ?_, fun _ _ _ hused => hused⟩
      rcases hwell.1 i hused hcovers with hh | he
      · exact hhears hh
      · exact hends he

end Conn

theorem Net.handle_found {s : Net} {c : Slot} {src dst : Ip4}
    (hc : lockboxFindConnection s.lockbox (g.tuple src) = some c) :
    (s.handle g src dst).conns c = (s.conns c).handle s.office.ticks g := by
  have hused : (s.conns c).box.inUse = true := (lockboxFindConnection_some hc).1
  unfold Net.handle Conn.handle
  rw [hc]
  dsimp only
  split_ifs
  · exact act_conns_self s c _
  · exact handleSyn_conns hused g src dst
  · rw [handleSegment, resend_conns]
    exact act_conns_self s c _

/-- The window is exact after an acknowledgement exactly if that takes a way that fits it. -/
theorem ack_exact_iff (s : Net) (c : Slot) (g : Segment) (src dst : Ip4) (u : Word)
    (hc : lockboxFindConnection s.lockbox (g.tuple src) = some c) (hack : g.isAck = true)
    (hopen : (s.conns c).rapport.status ≠ .closed) (hlined : (s.conns c).Lined u) :
    Conn.AckExact (s.conns c) ((s.handle g src dst).conns c) u g ↔ (s.conns c).AcksWell u g := by
  rw [Net.handle_found hc]
  exact Conn.ackExact_handle_iff hopen hack hlined

def oneByteSent : Net :=
  Runs.run Net.step (.boot sampleOffice) (sampleHandshake ++ [.send 1 [0x61]])

theorem lined_oneByteSent : (oneByteSent.conns 1).Lined (sampleIsn + 1) where
  armed := .inr (by decide +kernel)
  oldest := by decide +kernel
  sent := by decide +kernel
  half := by decide +kernel

theorem byte_acknowledged : Conn.AckExact (oneByteSent.conns 1)
    ((oneByteSent.handle ⟨1001, 80, 8, sampleIsn + 2, 0x10, 4096, []⟩ samplePeer sampleIp).conns 1)
    (sampleIsn + 1) ⟨1001, 80, 8, sampleIsn + 2, 0x10, 4096, []⟩ := by
  refine (ack_exact_iff oneByteSent 1 _ samplePeer sampleIp (sampleIsn + 1) (by decide +kernel)
    (by decide) (by decide +kernel) lined_oneByteSent).mpr ⟨fun _ _ _ => .inl ?_, fun hover => ?_⟩
  · exact ⟨by decide +kernel, by decide, .inl (by decide +kernel)⟩
  · exact absurd hover.1 (by decide +kernel)

theorem syn_still_tracked_and_unsent_acknowledged :
    let s := Runs.run Net.step (.boot openOffice) [.socket 1, .connect 0 samplePeer 9000]
    ¬ Conn.AckExact (s.conns 0)
        ((conversationHandle s sampleSynAck samplePeer sampleIp).conns 0) (2627806352 - 1)
        (decode sampleSynAck.bytes) ∧
      ¬ Conn.AckExact (oneByteSent.conns 1)
        ((oneByteSent.step (fromPeer 8 (sampleIsn + 102) 0x10 [])).conns 1) (sampleIsn + 1)
        ⟨1001, 80, 8, sampleIsn + 102, 0x10, 4096, []⟩ := by
  constructor
  · intro hexact
    exact hexact.1 0 (by decide +kernel) ⟨by decide +kernel, by decide +kernel⟩
  · intro hexact
    have hstays := hexact.2 ⟨by decide +kernel, by decide +kernel⟩ (by decide) 0 (by decide +kernel)
    exact absurd hstays (by decide +kernel)

end Aevros
