import Aevros.Guarantees.Acknowledged

/-! # What is waited for is tracked

While a connection waits for the acknowledgement of its SYN or FIN, the segment is in the window, so
that the timer resends it or gives up.
-/

namespace Aevros

open Runs Conn PacketsState Option

variable {k : Conn} {p q r : PacketsState} {g : Segment} {now n : Word}

def SchedCall.Proper : SchedCall → Prop
  | .track _ seqLen _ => 0 < seqLen
  | _ => True

namespace PacketsState

def Uses (p q : PacketsState) : Prop :=
  ∃ calls : List (Word × SchedCall), (∀ c ∈ calls, c.2.Proper) ∧ q = run call p calls

theorem Uses.refl (p : PacketsState) : p.Uses p := ⟨[], by simp, rfl⟩

theorem Uses.trans (h : p.Uses q) (h' : q.Uses r) : p.Uses r := by
  obtain ⟨calls, hcalls, rfl⟩ := h
  obtain ⟨calls', hcalls', rfl⟩ := h'
  refine ⟨calls ++ calls', fun c hc => ?_, (run_append _ _ _ _).symm⟩
  exact (List.mem_append.mp hc).elim (hcalls c) (hcalls' c)

theorem Uses.single (c : Word × SchedCall) (hc : c.2.Proper) : p.Uses (p.call c) :=
  ⟨[c], by simpa using hc, rfl⟩

theorem uses_cancel (p : PacketsState) : p.Uses (schedulerCancel p) := .single (0, .cancel) trivial

theorem uses_track (now : Word) (p : PacketsState) (seq : Word) {seqLen : ℕ} (h : 0 < seqLen)
    (frame : Frame) : p.Uses (schedulerTrack now p seq seqLen frame).2 :=
  .single (now, .track seq seqLen frame) h

/-- Segments in flight are tracked, each for at least one number. -/
structure Sound (p : PacketsState) : Prop where
  armed : p.Armed
  positive : ∀ i, (p.seg i).inUse = true → 0 < (p.seg i).seqLen

theorem Sound.call (p : PacketsState) (c : Word × SchedCall) (h : p.Sound) (hc : c.2.Proper) :
    (p.call c).Sound := by
  refine ⟨Armed.call p c h.armed, ?_⟩
  obtain ⟨now, c⟩ := c
  cases c with
  | track seq seqLen frame =>
    have hpos : 0 < seqLen := hc
    change ∀ i, ((schedulerTrack now p seq seqLen frame).2.seg i).inUse = true →
      0 < ((schedulerTrack now p seq seqLen frame).2.seg i).seqLen
    rcases p.track_cases now seq seqLen frame with ⟨heq, -⟩ | ⟨j, -, -, -, -, heq⟩
    · rw [heq]
      exact h.positive
    · rw [heq]
      intro i hi
      rcases eq_or_ne i j with rfl | hij
      · simpa [put] using hpos
      · simp only [put, Function.update_of_ne hij] at hi ⊢
        exact h.positive i hi
  | ack acked =>
    intro i hi
    have hlen : ((schedulerAck now p acked).2.seg i).seqLen = (p.seg i).seqLen := by
      rw [seg_ack]
      split_ifs
      · exact congrArg Flight.seqLen (flight_free p acked i)
      · rfl
    change 0 < ((schedulerAck now p acked).2.seg i).seqLen
    rw [hlen]
    exact h.positive i (schedulerAck_shrinks now p acked i hi)
  | cancel =>
    rintro i ⟨⟩
  | tick =>
    change ∀ i, ((p.timer now).seg i).inUse = true → 0 < ((p.timer now).seg i).seqLen
    rcases p.timer_cases now with ⟨-, heq⟩ | ⟨-, -, heq⟩ |
      ⟨j, -, -, ⟨-, heq⟩ | ⟨-, -, heq⟩ | ⟨-, heq⟩⟩
    all_goals rw [heq]
    · exact h.positive
    · exact h.positive
    · exact h.positive
    · exact h.positive
    · rintro i ⟨⟩

theorem Uses.sound (h : p.Uses q) (hp : p.Sound) : q.Sound := by
  obtain ⟨calls, hcalls, rfl⟩ := h
  exact (along_of_forall hcalls).run_invariant Sound.call hp

theorem Sound.empty_of_no_bytes (h : p.Sound) (hbytes : schedulerBytesInFlight p = 0) :
    p.Empty := by
  intro i
  by_contra hused
  rw [Bool.not_eq_false] at hused
  have hsum := bytesInFlight_eq (p := p)
  have hmem : (p.seg i).flight ∈ p.inFlight := mem_inFlight.mpr ⟨i, hused, rfl⟩
  have hle := Multiset.single_le_sum (fun _ _ => Nat.zero_le _) _
    (Multiset.mem_map_of_mem Flight.seqLen hmem)
  have hpos := h.positive i hused
  change (p.seg i).seqLen ≤ _ at hle
  omega

end PacketsState

def PacketsState.Tracks (p : PacketsState) (n : Word) : Prop :=
  ∃ i, (p.seg i).inUse = true ∧ (p.seg i).seq = n ∧ (p.seg i).seqLen = 1

theorem uses_rapportOnRst (k : Conn) : k.scheduler.Uses (rapportOnRst k).scheduler := by
  unfold rapportOnRst
  split_ifs
  · exact .refl _
  · exact uses_cancel _

theorem uses_rapportOnAck (now : Word) (k : Conn) (ackNum : Word) :
    k.scheduler.Uses (rapportOnAck now k ackNum).scheduler := by
  rw [scheduler_rapportOnAck]
  split_ifs
  · exact uses_cancel _
  · exact .refl _

theorem uses_receive (now : Word) (k : Conn) (g : Segment) :
    k.scheduler.Uses (conversationReceive now k g).2.scheduler := by
  change (rapportSetPeerWindow k g.window).scheduler.Uses _
  unfold conversationReceive
  generalize rapportSetPeerWindow k g.window = k
  dsimp only
  split_ifs
  · rw [scheduler_outOfOrder, Conn.earlyAck]
    split_ifs
    · exact .single (now, .ack g.ack) trivial
    · exact .refl _
  · exact uses_rapportOnRst k
  · rw [scheduler_inOrder, Conn.takeAck]
    split_ifs
    · exact (uses_rapportOnAck now k g.ack).trans (.single (now, .ack g.ack) trivial)
    · exact .refl _

theorem uses_dispatchTracked (o : Office) (k : Conn) (flags : Byte) (seq ack : Word)
    (payload : List Byte) {seqLen : ℕ} (h : 0 < seqLen) (me : Identity) :
    k.scheduler.Uses (dispatchTracked o k flags seq ack payload seqLen me).2.2.scheduler := by
  have hrow := conversationDispatch_cases o k flags seq ack payload me
  unfold dispatchTracked
  generalize conversationDispatch o k flags seq ack payload me = r at hrow ⊢
  obtain ⟨_ | sent, o', k'⟩ := r
  all_goals
    have hk : k'.scheduler = k.scheduler := by rcases hrow with rfl | rfl <;> rfl
  · exact hk ▸ .refl _
  · change k.scheduler.Uses (schedulerTrack o'.ticks k'.scheduler seq seqLen sent.2).2
    rw [hk]
    exact uses_track _ _ _ h _

theorem uses_send (o : Office) (k : Conn) (data : List Byte) (me : Identity) :
    k.scheduler.Uses (switchboardSend o k data me).2.2.scheduler := by
  apply (switchboardSend_outcome o k data me).row (P := (k.scheduler.Uses ·.scheduler))
    (.refl _) (.refl _)
  exact fun hs _ => uses_track _ _ _ (Nat.pos_of_ne_zero hs.nonempty) _

theorem scheduler_initiateClose (k : Conn) (finSeq : Word) :
    (rapportInitiateClose k finSeq).scheduler = k.scheduler := by
  unfold rapportInitiateClose
  dsimp only
  split <;> rfl

theorem uses_close (o : Office) (k : Conn) (me : Identity) :
    k.scheduler.Uses (switchboardClose o k me).2.2.scheduler := by
  apply (switchboardClose_outcome o k me).row (P := (k.scheduler.Uses ·.scheduler))
    (.refl _) (.refl _)
  intro _ frame
  rw [Conn.finished, scheduler_initiateClose]
  exact uses_track _ _ _ one_pos _

theorem uses_timer (now : Word) (k : Conn) :
    k.scheduler.Uses (schedulerTimer now k).2.scheduler := by
  have htick : k.scheduler.Uses (k.scheduler.timer now) := .single (now, .tick) trivial
  rcases schedulerTimer_snd now k with ⟨-, h⟩ | ⟨-, h⟩
  · rw [h]
    exact htick
  · rw [h]
    exact htick.trans (uses_rapportOnRst (k.setScheduler _))

theorem uses_answer (k : Conn) (g : Segment) :
    k.scheduler.Uses (conversationAnswer k g).scheduler := by
  cases hrst : g.rst with
  | true =>
    rw [conversationAnswer, if_pos hrst]
    exact uses_rapportOnRst k
  | false =>
    rw [scheduler_answer hrst]
    exact .refl _

theorem uses_step (k : Conn) (e : ConnEvent) : k.scheduler.Uses (k.step e).scheduler := by
  cases e with
  | syn u peerIsn ourIsn o me => exact uses_dispatchTracked o _ _ _ _ _ one_pos me
  | connect u ourIsn o me => exact uses_dispatchTracked o _ _ _ _ _ one_pos me
  | cookie u now g =>
    exact (uses_rapportOnAck now (rapportOnSyn (k.claim u) (g.seq - 1) (g.ack - 1)) g.ack).trans
      (uses_receive now _ g)
  | answer g => exact uses_answer k g
  | segment now g => exact uses_receive now k g
  | send o data me => exact uses_send o k data me
  | close o me => exact uses_close o k me
  | recv maxLen =>
    change k.scheduler.Uses (switchboardRecv k maxLen).2.scheduler
    unfold switchboardRecv
    split_ifs <;> exact .refl _
  | timer now => exact uses_timer now k
  | listen | accept | expire => exact .refl _

/-- The number of the segment whose acknowledgement the state machine waits for. -/
def Rapport.awaits (r : Rapport) : Option Word :=
  match r.status with
  | .synSent | .synReceived => some r.ourIsn
  | .finWait1 | .closing | .lastAck => some r.ourFinSeq
  | _ => none

namespace Conn

/-- The state machine takes the number as the acknowledgement that it waits for. -/
def takesAck (k : Conn) (ackNum : Word) : Bool :=
  match k.rapport.status with
  | .synReceived => ackNum = k.rapport.ourIsn + 1
  | .finWait1 | .closing | .lastAck => k.rapport.ourFinSeq + 1 ≤ ackNum
  | _ => false

theorem awaits_of_takesAck {ackNum : Word} (h : k.takesAck ackNum = true) (now : Word) :
    (rapportOnAck now k ackNum).rapport.awaits = none := by
  cases hs : k.rapport.status with
  | synReceived =>
    have hack : ackNum = k.rapport.ourIsn + 1 := by
      simp only [takesAck, hs] at h
      exact of_decide_eq_true h
    simp only [rapportOnAck, hs, hack, ne_eq]
    rfl
  | finWait1 | closing | lastAck =>
    have hack : k.rapport.ourFinSeq + 1 ≤ ackNum := by
      simp only [takesAck, hs] at h
      exact of_decide_eq_true h
    simp only [rapportOnAck, hs, hack]
    rfl
  | _ => simp [takesAck, hs] at h

theorem rapportOnAck_of_not_takesAck {ackNum : Word} (h : k.takesAck ackNum = false)
    (now : Word) : rapportOnAck now k ackNum = k := by
  cases hs : k.rapport.status with
  | synReceived =>
    have hack : ackNum ≠ k.rapport.ourIsn + 1 := by
      simp only [takesAck, hs] at h
      exact of_decide_eq_false h
    simp only [rapportOnAck, hs, hack, ne_eq, not_false_eq_true, if_true]
  | finWait1 | closing | lastAck =>
    have hack : ¬ k.rapport.ourFinSeq + 1 ≤ ackNum := by
      simp only [takesAck, hs] at h
      exact of_decide_eq_false h
    simp only [rapportOnAck, hs, hack, if_false]
  | _ => simp [rapportOnAck, hs]

theorem awaits_rapportOnFin (now : Word) (k : Conn) :
    (rapportOnFin now k).rapport.awaits = k.rapport.awaits := by
  unfold rapportOnFin
  split <;> rename_i hs
  · simp [hs, Rapport.awaits, setStatus]
  · simp [hs, Rapport.awaits, setStatus, rapportAdvanceSeq]
  · simp [hs, Rapport.awaits, enterTimeWait]
  · rfl

theorem awaits_deliver (k : Conn) (data : List Byte) :
    (k.deliver data).rapport.awaits = k.rapport.awaits := by
  obtain ⟨n, hn, -⟩ := delivered_deliver k data
  rw [hn.rapport]
  rfl

theorem awaits_inOrder (now : Word) (k : Conn) (g : Segment) :
    (k.inOrder now g).2.rapport.awaits = (k.takeAck now g).2.rapport.awaits := by
  unfold inOrder
  split_ifs
  · rw [awaits_rapportOnFin, awaits_deliver]
  · exact awaits_deliver _ _

theorem awaits_rapportOnRst (k : Conn) : (rapportOnRst k).rapport.awaits = none := by
  unfold rapportOnRst
  split_ifs with hs
  · simp [Rapport.awaits, hs]
  · rfl

def Timed (k : Conn) : Prop :=
  ∀ n ∈ k.rapport.awaits, ∃ i, (k.scheduler.seg i).inUse = true ∧ (k.scheduler.seg i).seq = n

/-- The invariant of rows: what is waited for is tracked, and for one number. -/
structure Attended (k : Conn) : Prop where
  live : k.Live
  sound : k.scheduler.Sound
  awaited : ∀ n, k.rapport.awaits = some n → k.scheduler.Tracks n

theorem Attended.timed (h : k.Attended) : k.Timed := by
  intro n hn
  obtain ⟨i, hused, hseq, -⟩ := h.awaited n hn
  exact ⟨i, hused, hseq⟩

/-- What is waited for is acknowledged in order, or the segment is dropped. -/
def Heeds (k : Conn) (g : Segment) : Prop :=
  ∀ n ∈ k.rapport.awaits, g.isAck = true → seqBefore g.ack (n + 1) = false →
    g.seq = k.rapport.expectedSeq ∧ (g.rst = true ∨ k.takesAck g.ack = true) ∨
      g.seq ≠ k.rapport.expectedSeq ∧ ¬ g.ack ≤ k.rapport.sendSeq

instance (k : Conn) (g : Segment) : Decidable (k.Heeds g) :=
  inferInstanceAs (Decidable (∀ n ∈ k.rapport.awaits, _ → _ → _))

theorem tracked_ack (h : k.scheduler.Sound) {acked : Word}
    (hbefore : seqBefore acked (n + 1) = true) (now : Word) (hi : k.scheduler.Tracks n) :
    (schedulerAck now k.scheduler acked).2.Tracks n := by
  obtain ⟨i, hused, hseq, hlen⟩ := hi
  have hends : (k.scheduler.seg i).ends = n + 1 := by
    rw [SchedSegment.ends, hseq, hlen]
    rfl
  have hflight : ((schedulerAck now k.scheduler acked).2.seg i).flight =
      (k.scheduler.seg i).flight := by
    rw [seg_ack]
    split_ifs
    · exact flight_free _ _ _
    · rfl
  refine ⟨i, (inUse_ack h.armed now acked i).mpr ⟨hused, by rwa [hends]⟩, ?_, ?_⟩
  · exact (congrArg Flight.seq hflight).trans hseq
  · exact (congrArg Flight.seqLen hflight).trans hlen

theorem awaits_takeAck (hn : (k.takeAck now g).2.rapport.awaits = some n) :
    k.rapport.awaits = some n ∧ ((k.takeAck now g).2.scheduler = k.scheduler ∨
      g.isAck = true ∧ k.takesAck g.ack = false ∧
        (k.takeAck now g).2.scheduler = (schedulerAck now k.scheduler g.ack).2) := by
  unfold takeAck at hn ⊢
  cases hack : g.isAck with
  | false =>
    rw [if_neg (by simp [hack])] at hn
    exact ⟨hn, .inl rfl⟩
  | true =>
    rw [if_pos hack] at hn
    cases htakes : k.takesAck g.ack with
    | true =>
      have hnone := awaits_of_takesAck htakes now
      exact absurd (hnone.symm.trans hn) (by simp)
    | false =>
      rw [rapportOnAck_of_not_takesAck htakes] at hn ⊢
      exact ⟨hn, .inr ⟨rfl, rfl, rfl⟩⟩

theorem awaits_receive (hn : (conversationReceive now k g).2.rapport.awaits = some n) :
    k.rapport.awaits = some n ∧ ((conversationReceive now k g).2.scheduler = k.scheduler ∨
        g.isAck = true ∧
          (conversationReceive now k g).2.scheduler = (schedulerAck now k.scheduler g.ack).2 ∧
          (g.seq = k.rapport.expectedSeq ∧ g.rst = false ∧ k.takesAck g.ack = false ∨
            g.seq ≠ k.rapport.expectedSeq ∧ g.ack ≤ k.rapport.sendSeq)) := by
  by_cases hseq : g.seq = k.rapport.expectedSeq
  · cases hrst : g.rst with
    | true =>
      have hreceive : (conversationReceive now k g).2 =
          rapportOnRst (rapportSetPeerWindow k g.window) := by
        unfold conversationReceive
        rw [if_neg (not_not.mpr (by exact hseq)), if_pos hrst]
      rw [hreceive, awaits_rapportOnRst] at hn
      cases hn
    | false =>
      have hreceive : conversationReceive now k g =
          (rapportSetPeerWindow k g.window).inOrder now g := by
        unfold conversationReceive
        rw [if_neg (not_not.mpr (by exact hseq)), if_neg (by simp [hrst])]
      rw [hreceive, awaits_inOrder] at hn
      rw [hreceive, scheduler_inOrder]
      obtain ⟨hk, h | ⟨hack, htakes, h⟩⟩ := awaits_takeAck hn
      · exact ⟨hk, .inl h⟩
      · exact ⟨hk, .inr ⟨hack, h, .inl ⟨hseq, rfl, htakes⟩⟩⟩
  · have hreceive : conversationReceive now k g =
        (rapportSetPeerWindow k g.window).outOfOrder now g := if_pos hseq
    rw [hreceive, (outOfOrder_frame now _ g).2] at hn
    refine ⟨hn, ?_⟩
    cases hack : g.isAck with
    | true =>
      rw [scheduler_receive_outOfOrder now hseq hack]
      split_ifs with hle
      · exact .inr ⟨rfl, rfl, .inr ⟨hseq, hle⟩⟩
      · exact .inl rfl
    | false =>
      rw [hreceive, scheduler_outOfOrder, earlyAck, hack]
      exact .inl rfl

theorem awaited_receive (h : k.Attended) (hg : k.Heeds g) (now : Word)
    (hn : (conversationReceive now k g).2.rapport.awaits = some n) :
    (conversationReceive now k g).2.scheduler.Tracks n := by
  obtain ⟨hawaits, heq | ⟨hack, heq, hway⟩⟩ := awaits_receive hn
  · rw [heq]
    exact h.awaited n hawaits
  · rw [heq]
    refine tracked_ack h.sound ?_ now (h.awaited n hawaits)
    by_contra hcovers
    rw [Bool.not_eq_true] at hcovers
    rcases hg n hawaits hack hcovers with ⟨hseq, hrst | htakes⟩ | ⟨hseq, hle⟩
    · rcases hway with ⟨-, hno, -⟩ | ⟨hne, -⟩
      · simp [hno] at hrst
      · exact hne hseq
    · rcases hway with ⟨-, -, hno⟩ | ⟨hne, -⟩
      · simp [hno] at htakes
      · exact hne hseq
    · rcases hway with ⟨heq', -, -⟩ | ⟨-, hle'⟩
      · exact hseq heq'
      · exact hle hle'

end Conn

/-- There is a route, a hardware address for its next hop, and a pass left. -/
def Office.Reaches (o : Office) (dest : Ip4) : Prop :=
  ((atlasLookup o.atlas dest).bind (rolodexLookup o.rolodex)).isSome = true ∧
    (o.bailiff.reclaimExpired o.ticks).freePass.isSome = true

instance (o : Office) (dest : Ip4) : Decidable (o.Reaches dest) :=
  inferInstanceAs (Decidable (_ ∧ _))

theorem schedulerTrack_of_free (hfree : ∃ i, (p.seg i).inUse = false) (now seq : Word)
    {frame : Frame} (hpos : 0 < frame.length) (hle : frame.length ≤ schedMaxFrame) :
    (schedulerTrack now p seq 1 frame).2.Tracks seq := by
  rcases p.track_cases now seq 1 frame with ⟨-, hfull⟩ | ⟨i, -, -, -, -, heq⟩
  · obtain ⟨i, hi⟩ := hfree
    have hlt := Finset.card_lt_univ_of_notMem (x := i) (s := p.used) (by simp [hi])
    rw [Fintype.card_fin] at hlt
    omega
  · rw [heq]
    exact ⟨i, by simp [PacketsState.put]⟩

theorem dispatchTracked_reaches {o : Office} {flags : Byte} {me : Identity}
    (hreach : o.Reaches k.box.remoteIp) (hused : k.box.inUse = true)
    (hflags : flagMakeSense flags = true) (hfree : ∃ i, (k.scheduler.seg i).inUse = false)
    (seq ack : Word) :
    (dispatchTracked o k flags seq ack [] 1 me).2.2.scheduler.Tracks seq := by
  obtain ⟨mac, hmac⟩ := isSome_iff_exists.mp hreach.1
  obtain ⟨nextHop, hroute, hmac⟩ := bind_eq_some_iff.mp hmac
  obtain ⟨i, hpass⟩ := isSome_iff_exists.mp hreach.2
  unfold dispatchTracked conversationDispatch
  rw [if_neg (by simp), if_neg (by simp [hflags]), if_neg (by simp [hused]), hroute]
  dsimp only
  rw [hmac]
  have hlen (w : ℕ) : (tcpFrame mac me.mac me.ip k.box.remoteIp
      ⟨k.box.localPort, k.box.remotePort, seq, ack, flags, BitVec.ofNat 16 w, []⟩).length = 54 :=
    length_tcpFrame _ _ _ _ _
  have hbail : 54 ≤ bailiffMaxFrame := by decide
  rw [getD_some, bailiffRequestPass_of_free hpass (by rw [hlen]; omega)]
  exact schedulerTrack_of_free hfree _ _ (by rw [hlen]; omega) (by rw [hlen]; decide)

/-- What must hold of the row and the office for a step to leave what is waited for tracked. -/
def ConnEvent.Heeded (k : Conn) : ConnEvent → Prop
  | .syn u _ _ o _ | .connect u _ o _ =>
    o.Reaches u.remoteIp ∧ ∃ i, (k.scheduler.seg i).inUse = false
  | .segment _ g => k.Heeds g
  | _ => True

instance (k : Conn) : (e : ConnEvent) → Decidable (e.Heeded k)
  | .syn u _ _ o _ => inferInstanceAs (Decidable (o.Reaches u.remoteIp ∧ _))
  | .connect u _ o _ => inferInstanceAs (Decidable (o.Reaches u.remoteIp ∧ _))
  | .segment _ g => inferInstanceAs (Decidable (k.Heeds g))
  | .cookie .. | .listen .. | .answer .. | .accept | .send .. | .close .. | .recv .. | .expire
  | .timer .. => .isTrue trivial

theorem attended_boot : ({} : Conn).Attended where
  live := ⟨fun _ => rfl, fun _ _ => rfl⟩
  sound := ⟨PacketsState.armed_boot, by rintro i ⟨⟩⟩
  awaited := by rintro n ⟨⟩

theorem awaits_cookie (k : Conn) (u : Tuple) (now : Word) (g : Segment) :
    (k.step (.cookie u now g)).rapport.awaits = none := by
  cases hn : (k.step (.cookie u now g)).rapport.awaits with
  | none => rfl
  | some n =>
    have hopen := (awaits_receive hn).1
    have htakes : (rapportOnSyn (k.claim u) (g.seq - 1) (g.ack - 1)).takesAck g.ack = true :=
      decide_eq_true (BitVec.sub_add_cancel g.ack 1).symm
    rw [awaits_of_takesAck htakes] at hopen
    cases hopen

theorem awaits_answer (hn : (conversationAnswer k g).rapport.awaits = some n) :
    conversationAnswer k g = k := by
  unfold conversationAnswer at hn ⊢
  split_ifs at hn ⊢
  · rw [awaits_rapportOnRst] at hn
    cases hn
  · unfold rapportOnSynAck at hn ⊢
    split_ifs at hn ⊢
    · rfl
    · rfl
    · cases hn
  · rfl

theorem awaits_send (o : Office) (data : List Byte) (me : Identity)
    (hn : (switchboardSend o k data me).2.2.rapport.awaits = some n) :
    k.rapport.awaits = some n ∧ (switchboardSend o k data me).2.2.scheduler = k.scheduler := by
  revert hn
  apply (switchboardSend_outcome o k data me).row (P := fun k' => k'.rapport.awaits = some n →
    k.rapport.awaits = some n ∧ k'.scheduler = k.scheduler) (fun hn => ⟨hn, rfl⟩)
    fun hn => ⟨hn, rfl⟩
  intro hs frame hn
  have hnone : (k.sent o.ticks data frame).rapport.awaits = none := by
    simp [Rapport.awaits, Conn.sent, rapportAdvanceSendSeq, waystationReceiveWindow,
      Conn.setScheduler, Conn.resetWaystation, hs.established]
  rw [hnone] at hn
  cases hn

theorem awaits_initiateClose {finSeq : Word}
    (hs : k.rapport.status = .established ∨ k.rapport.status = .closeWait) :
    (rapportInitiateClose k finSeq).rapport.awaits = some finSeq := by
  unfold rapportInitiateClose
  rcases hs with hs | hs <;> simp [hs, Rapport.awaits, Conn.setStatus]

theorem awaited_close (h : k.Attended) (o : Office) (me : Identity)
    (hn : (switchboardClose o k me).2.2.rapport.awaits = some n) :
    (switchboardClose o k me).2.2.scheduler.Tracks n := by
  have houtcome := switchboardClose_outcome o k me
  generalize switchboardClose o k me = r at hn houtcome ⊢
  cases houtcome with
  | refused => exact h.awaited n hn
  | foyer => exact h.awaited n hn
  | noPass => exact h.awaited n hn
  | presented nextHop mac i hclosable _ _ _ r =>
    have hlen : (k.frameTo (flagFin ||| flagAck) [] me mac).length = 54 :=
      length_tcpFrame _ _ _ _ _
    have hempty := h.sound.empty_of_no_bytes hclosable.acked
    have hawaits : (k.finished o.ticks (k.frameTo (flagFin ||| flagAck) [] me mac)).rapport.awaits =
        some k.rapport.sendSeq := awaits_initiateClose hclosable.status
    cases hawaits.symm.trans hn
    rw [Conn.finished, scheduler_initiateClose]
    exact schedulerTrack_of_free ⟨0, hempty 0⟩ _ _ (by rw [hlen]; omega) (by rw [hlen]; decide)

theorem awaits_timer (hn : (schedulerTimer now k).2.rapport.awaits = some n) :
    k.rapport.awaits = some n ∧ ∀ i, ((schedulerTimer now k).2.scheduler.seg i).flight =
      (k.scheduler.seg i).flight ∧
      ((schedulerTimer now k).2.scheduler.seg i).inUse = (k.scheduler.seg i).inUse := by
  rcases schedulerTimer_snd now k with ⟨hgives, heq⟩ | ⟨-, heq⟩
  · rw [heq] at hn ⊢
    refine ⟨hn, fun i => ?_⟩
    rcases k.scheduler.timer_cases now with ⟨-, ht⟩ | ⟨-, -, ht⟩ |
      ⟨j, -, -, ⟨-, ht⟩ | ⟨-, -, ht⟩ | ⟨hg, -⟩⟩
    all_goals first | (rw [ht]; exact ⟨rfl, rfl⟩) | exact absurd hg hgives
  · rw [heq, awaits_rapportOnRst] at hn
    cases hn

theorem Conn.Attended.step (k : Conn) (e : ConnEvent) (h : k.Attended) (hl : e.Legal k)
    (he : e.Heeded k) : (k.step e).Attended := by
  refine ⟨live_step e h.live hl, (uses_step k e).sound h.sound, fun n hn => ?_⟩
  cases e with
  | syn u peerIsn ourIsn o me =>
    have hawaits : (k.step (.syn u peerIsn ourIsn o me)).rapport.awaits = some ourIsn :=
      congrArg Rapport.awaits (dispatchTracked_rapport o (rapportOnSyn (k.claim u) peerIsn ourIsn)
        _ _ _ _ _ me)
    obtain rfl := some.inj (hawaits.symm.trans hn)
    exact dispatchTracked_reaches (k := rapportOnSyn (k.claim u) peerIsn ourIsn) he.1 rfl
      (by decide) he.2 _ _
  | connect u ourIsn o me =>
    have hawaits : (k.step (.connect u ourIsn o me)).rapport.awaits = some ourIsn :=
      congrArg Rapport.awaits (dispatchTracked_rapport o (rapportInitiateConnect (k.claim u) ourIsn)
        _ _ _ _ _ me)
    obtain rfl := some.inj (hawaits.symm.trans hn)
    exact dispatchTracked_reaches (k := rapportInitiateConnect (k.claim u) ourIsn) he.1 rfl
      (by decide) he.2 _ _
  | cookie u now g =>
    rw [awaits_cookie] at hn
    cases hn
  | listen port protocol =>
    have hclosed : k.rapport.status = .closed := h.live.closed_of_free hl
    rw [Rapport.awaits, show (k.step (.listen port protocol)).rapport.status = _ from hclosed] at hn
    cases hn
  | answer g =>
    have hk : k.step (.answer g) = k := awaits_answer hn
    rw [hk] at hn ⊢
    exact h.awaited n hn
  | segment now g => exact awaited_receive h he now hn
  | accept => exact h.awaited n hn
  | send o data me =>
    obtain ⟨hk, hsched⟩ := awaits_send o data me hn
    exact (congrArg (PacketsState.Tracks · n) hsched).mpr (h.awaited n hk)
  | close o me => exact awaited_close h o me hn
  | recv maxLen =>
    have hrow : (k.step (.recv maxLen)).rapport = k.rapport ∧
        (k.step (.recv maxLen)).scheduler = k.scheduler := by
      change (switchboardRecv k maxLen).2.rapport = _ ∧ (switchboardRecv k maxLen).2.scheduler = _
      unfold switchboardRecv
      split_ifs <;> exact ⟨rfl, rfl⟩
    rw [hrow.1] at hn
    rw [hrow.2]
    exact h.awaited n hn
  | expire => cases hn
  | timer now =>
    obtain ⟨hk, hseg⟩ := awaits_timer hn
    obtain ⟨i, hused, hseq, hlen⟩ := h.awaited n hk
    obtain ⟨hflight, huse⟩ := hseg i
    exact ⟨i, huse.trans hused, (congrArg Flight.seq hflight).trans hseq,
      (congrArg Flight.seqLen hflight).trans hlen⟩

/-- In every run whose steps heed what the slot waits for, the segment waited for is tracked. -/
theorem awaited_segment_tracked (o : Office) (es : List Event) (c : Slot)
    (hheeded : Along Conn.step (fun k e => e.Heeded k) {}
      ((run Net.step (Net.boot o) es).history c)) :
    ((run Net.step (Net.boot o) es).conns c).Timed := by
  obtain ⟨hrow, hlegal⟩ := Net.history_run o es c
  rw [hrow]
  have hattended := (hlegal.and hheeded).run_invariant
    (fun k e hk he => Conn.Attended.step k e hk he.1 he.2) attended_boot
  exact hattended.timed

theorem syn_ack_tracked :
    let s := run Net.step (Net.boot sampleOffice) [.socket 1, .bind 0 80, fromPeer 7 0 0x02 []]
    (s.conns 1).Timed ∧ (s.conns 1).rapport.status = .synReceived :=
  ⟨awaited_segment_tracked sampleOffice _ 1 (by decide +kernel), by decide +kernel⟩

theorem Conn.not_timed_of_empty (hk : k.rapport.awaits = some n) (hempty : k.scheduler.Empty) :
    ¬ k.Timed := by
  intro h
  obtain ⟨i, hused, -⟩ := h n hk
  simp [hempty i] at hused

def strangerOffice : Office := { sampleOffice with rolodex := rolodexSetIp {} sampleIp }

theorem waiting_untracked :
    let s := run Net.step (Net.boot strangerOffice) [.socket 1, .bind 0 80, fromPeer 7 0 0x02 []]
    let t := run Net.step (Net.boot sampleOffice)
      (sampleHandshake ++ [.close 1, fromPeer 9 (sampleIsn + 2) 0x10 []])
    ((s.conns 1).rapport.status = .synReceived ∧ ¬ (s.conns 1).Timed) ∧
      ((t.conns 1).rapport.status = .finWait1 ∧ ¬ (t.conns 1).Timed) := by
  intro s t
  have hs : (s.conns 1).rapport.status = .synReceived ∧ (s.conns 1).scheduler.Empty :=
    ⟨by decide +kernel, by unfold PacketsState.Empty; decide +kernel⟩
  have ht : (t.conns 1).rapport.status = .finWait1 ∧ (t.conns 1).scheduler.Empty :=
    ⟨by decide +kernel, by unfold PacketsState.Empty; decide +kernel⟩
  exact ⟨⟨hs.1, not_timed_of_empty (by rw [Rapport.awaits, hs.1]) hs.2⟩,
    ht.1, not_timed_of_empty (by rw [Rapport.awaits, ht.1]) ht.2⟩

end Aevros
