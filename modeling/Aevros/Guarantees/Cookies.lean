import Aevros.Guarantees.TwoStacks
import Aevros.Library.Mixing

/-! # SYN cookies

A cookie passes in the bucket it was made in and in the next one. A connection opened by it goes the
way of one opened by the SYN if the acknowledgement has the number after the SYN.
-/

namespace Aevros

open BitVec SynCookie Runs

namespace SynCookie

variable {t t' : Word} {bucket bucket' : Word}

theorem secretReady_ensureSecret (now : Word) (k : SynCookie) (l : Lottery) :
    (k.ensureSecret now l).1.secretReady = true := by
  unfold ensureSecret
  cases h : k.secretReady with
  | false => rfl
  | true => simpa using h

theorem ensureSecret_of_ready {k : SynCookie} (h : k.secretReady = true) (now : Word)
    (l : Lottery) : (k.ensureSecret now l).1 = k := by
  simp only [ensureSecret, h, if_true]

theorem mix_inj {secret a b c d d' : Word} : mix secret a b c d = mix secret a b c d' ↔ d = d' := by
  simp only [mix]
  rw [Mixing.xor_ushiftRight_inj (by decide), Mixing.mul_left_inj_of_odd (by decide), xor_right_inj]

theorem bucket_accepted_iff (h : bucket ≤ bucket') :
    bucket = bucket' ∨ 0 < bucket' ∧ bucket = bucket' - 1 ↔ bucket'.toNat ≤ bucket.toNat + 1 := by
  constructor
  · rintro (rfl | ⟨hpos, rfl⟩)
    · omega
    · bv_omega
  · bv_omega

theorem ushiftRight_le_ushiftRight (h : t ≤ t') (n : ℕ) : t >>> n ≤ t' >>> n := by
  rw [le_def] at h ⊢
  simp only [toNat_ushiftRight, Nat.shiftRight_eq_div_pow]
  exact Nat.div_le_div_right h

end SynCookie

/-- A cookie is accepted in its own time bucket and in the next one, and in no other. -/
theorem cookie_accepted_iff {t t' : Word} (h : t ≤ t') (k : SynCookie) (l l' : Lottery)
    (src : Ip4) (srcPort : Port) (dst : Ip4) (dstPort : Port) :
    let k₁ := (k.ensureSecret t l).1
    let k₂ := (k₁.ensureSecret t' l').1
    syncookieValidate t' k₂.secret src srcPort dst dstPort
        (syncookieGenerate t k₁.secret src srcPort dst dstPort + 1) = true ↔
      (t' >>> timeBucketShift).toNat ≤ (t >>> timeBucketShift).toNat + 1 := by
  intro k₁ k₂
  have hk : k₂ = k₁ := ensureSecret_of_ready (secretReady_ensureSecret t k l) t' l'
  rw [hk, ← bucket_accepted_iff (ushiftRight_le_ushiftRight h _)]
  simp only [syncookieValidate, syncookieGenerate, add_sub_cancel, Bool.or_eq_true,
    Bool.and_eq_true, decide_eq_true_eq, compute, mix_inj]

theorem cookie_accepted_across_bucket : syncookieValidate 95 7 ⟨10, 0, 2, 2⟩ 4000 ⟨10, 0, 2, 15⟩ 80
      (syncookieGenerate 32 7 ⟨10, 0, 2, 2⟩ 4000 ⟨10, 0, 2, 15⟩ 80 + 1) = true :=
  (cookie_accepted_iff (by decide) ⟨7, true⟩ {} {} ⟨10, 0, 2, 2⟩ 4000 ⟨10, 0, 2, 15⟩ 80).mpr
    (by decide)

def Conn.outgoing (k : Conn) : Word × Port := (k.rapport.sendSeq, k.rapport.peerWindow)

section Outgoing

variable (now : Word) (k : Conn)

theorem outgoing_onRst : (rapportOnRst k).outgoing = k.outgoing := by
  unfold rapportOnRst
  split_ifs <;> rfl

theorem outgoing_onAck (ack : Word) : (rapportOnAck now k ack).outgoing = k.outgoing := by
  unfold rapportOnAck
  split
  all_goals first | rfl | (split_ifs <;> rfl)

theorem outgoing_onFin : (rapportOnFin now k).outgoing = k.outgoing := by
  unfold rapportOnFin
  split <;> rfl

theorem outgoing_deliver (data : List Byte) : (k.deliver data).outgoing = k.outgoing := by
  obtain ⟨n, hd, -⟩ := delivered_deliver k data
  simp only [Conn.outgoing, hd.rapport]

variable (g : Segment)

theorem outgoing_takeAck : (k.takeAck now g).2.outgoing = k.outgoing := by
  unfold Conn.takeAck
  split_ifs
  · exact outgoing_onAck now k g.ack
  · rfl

theorem outgoing_outOfOrder : (k.outOfOrder now g).2.outgoing = k.outgoing := by
  obtain ⟨w, hw⟩ := k.outOfOrder_snd now g
  rw [hw]
  rfl

theorem outgoing_receive :
    (conversationReceive now k g).2.outgoing = (k.rapport.sendSeq, g.window) := by
  have hwindow : (rapportSetPeerWindow k g.window).outgoing = (k.rapport.sendSeq, g.window) := rfl
  unfold conversationReceive Conn.inOrder
  dsimp only
  split_ifs
  · rw [outgoing_outOfOrder, hwindow]
  · rw [outgoing_onRst, hwindow]
  · rw [outgoing_onFin, outgoing_deliver, outgoing_takeAck, hwindow]
  · rw [outgoing_deliver, outgoing_takeAck, hwindow]

end Outgoing

def Stimulus.swap : Stimulus → Stimulus
  | .segment now now' g => .segment now' now g
  | .read maxLen => .read maxLen

theorem Receiver.react_swap (p : Policy) (r : Receiver) (e : Stimulus) :
    r.react p e.swap = r.react p e := by
  cases e <;> rfl

/-- Two connections that no segment tells apart. -/
structure Mirrors (k k' : Conn) : Prop where
  synced : Synced k.box k.inbox
  synced' : Synced k'.box k'.inbox
  view : k.view = k'.view
  outgoing : k.outgoing = k'.outgoing

theorem Mirrors.react {k k' : Conn} (h : Mirrors k k') (e : Stimulus) :
    Mirrors (k.react e) (k'.react e.swap) where
  synced := k.synced_react e h.synced
  synced' := k'.synced_react e.swap h.synced'
  view := by
    rw [k.view_react e h.synced, k'.view_react e.swap h.synced', h.view, Receiver.react_swap]
  outgoing := by
    cases e with
    | segment now now' g =>
      have hu : k.box.inUse = k'.box.inUse := congrArg Receiver.inUse h.view
      have hseq : k.rapport.sendSeq = k'.rapport.sendSeq := congrArg Prod.fst h.outgoing
      simp only [Stimulus.swap, Conn.react]
      rw [hu]
      split_ifs
      · rw [outgoing_receive, outgoing_receive, hseq]
      · exact h.outgoing
    | read maxLen => exact h.outgoing

theorem Mirrors.run {k k' : Conn} (h : Mirrors k k') (es : List Stimulus) :
    Mirrors (run Conn.react k es) (run Conn.react k' (es.map .swap)) := by
  induction es generalizing k k' with
  | nil => exact h
  | cons e es ih => exact ih (h.react e)

/-- The same state, numbers and window, and the same bytes for the reader. -/
structure SameConnection (k k' : Conn) : Prop where
  status : k.rapport.status = k'.rapport.status
  expectedSeq : k.rapport.expectedSeq = k'.rapport.expectedSeq
  sendSeq : k.rapport.sendSeq = k'.rapport.sendSeq
  peerWindow : k.rapport.peerWindow = k'.rapport.peerWindow
  unread : unread k.box k.inbox = unread k'.box k'.inbox

namespace Receiver

variable {peerIsn ourIsn : Word} {g : Segment}

def established (peerIsn ourIsn : Word) : Receiver :=
  { opened peerIsn ourIsn with status := .established }

theorem takeAck_established : (established peerIsn ourIsn).takeAck true g =
    established peerIsn ourIsn := by
  unfold takeAck
  split_ifs <;> rfl

theorem receive_established (hseq : g.seq = peerIsn + 1) (hack : g.isAck = true)
    (hnum : g.ack = ourIsn + 1) :
    (established peerIsn ourIsn).receive policy4 g = (opened peerIsn ourIsn).receive policy4 g := by
  have hexp : ¬ g.seq ≠ (opened peerIsn ourIsn).expectedSeq := not_not.mpr hseq
  have hexp' : ¬ g.seq ≠ (established peerIsn ourIsn).expectedSeq := not_not.mpr hseq
  have hopened : (opened peerIsn ourIsn).takeAck true g = established peerIsn ourIsn := by
    simp [takeAck, hack, onAck, opened, established, hnum]
  rw [receive_policy4, receive_policy4, if_neg hexp, if_neg hexp', hopened, takeAck_established]
  rfl

theorem status_receive_established (hseq : g.seq = peerIsn + 1) :
    ((established peerIsn ourIsn).receive policy4 g).status ≠ .synReceived := by
  have hexp : ¬ g.seq ≠ (established peerIsn ourIsn).expectedSeq := not_not.mpr hseq
  have hst : (established peerIsn ourIsn).status = .established := rfl
  rw [receive_policy4, takeAck_established]
  split_ifs
  · simp [onRst, hst, close]
  · rw [onFin, status_deliver, hst]
    simp
  · rw [status_deliver, hst]
    simp

theorem status_receive_opened (hseq : g.seq ≠ peerIsn + 1) :
    ((opened peerIsn ourIsn).receive policy4 g).status = .synReceived := by
  have hexp : g.seq ≠ (opened peerIsn ourIsn).expectedSeq := hseq
  rw [receive_policy4, if_pos hexp, status_outOfOrder]
  rfl

end Receiver

variable {k k' : Conn} {g : Segment} {u : Tuple} {peerIsn ourIsn now : Word}

theorem sendSeq_syn (k : Conn) (u : Tuple) (peerIsn ourIsn : Word) (o : Office) (me : Identity) :
    (k.step (.syn u peerIsn ourIsn o me)).rapport.sendSeq = ourIsn + 1 := by
  obtain ⟨p, hrow | hrow, -⟩ := dispatchTracked_cases o (rapportOnSyn (k.claim u) peerIsn ourIsn)
    (flagSyn ||| flagAck) ourIsn (peerIsn + 1) [] 1 me
  · exact congrArg (fun k => k.rapport.sendSeq) hrow
  · exact congrArg (fun k => k.rapport.sendSeq) hrow

theorem sendSeq_cookie (k : Conn) (u : Tuple) (now : Word) (g : Segment) :
    (k.step (.cookie u now g)).outgoing = (g.ack, g.window) := by
  have hseq : (rapportOnAck now (rapportOnSyn (k.claim u) (g.seq - 1) (g.ack - 1))
      g.ack).rapport.sendSeq = g.ack := by
    have h := congrArg Prod.fst (outgoing_onAck now
      (rapportOnSyn (k.claim u) (g.seq - 1) (g.ack - 1)) g.ack)
    exact h.trans (BitVec.sub_add_cancel _ _)
  rw [← hseq]
  exact outgoing_receive now _ g

section

variable (hk : NextUnseen k.box.generation k.inbox k.waystation)

include hk

theorem view_cookie (u : Tuple) (now : Word) (g : Segment) :
    Synced (k.step (.cookie u now g)).box (k.step (.cookie u now g)).inbox ∧
      (k.step (.cookie u now g)).view =
        (Receiver.established (g.seq - 1) (g.ack - 1)).receive policy4 g := by
  obtain ⟨hs, hview⟩ := Conn.onSyn_claim hk u (g.seq - 1) (g.ack - 1)
  have hack : (rapportOnAck now (rapportOnSyn (k.claim u) (g.seq - 1) (g.ack - 1)) g.ack).view =
      Receiver.established (g.seq - 1) (g.ack - 1) := by
    rw [Conn.view_onAck, hview]
    simp [Receiver.onAck, Receiver.opened, Receiver.established]
  have hs' := (Tends.rapportOnAck now (rapportOnSyn (k.claim u) (g.seq - 1) (g.ack - 1))
    g.ack).synced hs
  refine ⟨(Tends.receive now _ g).synced hs', ?_⟩
  rw [← hack]
  exact Conn.view_receive hs'

theorem view_ordinary (u : Tuple) (peerIsn ourIsn : Word) (o : Office) (me : Identity) (now : Word)
    (g : Segment) : let k₁ := (k.step (.syn u peerIsn ourIsn o me)).step (.segment now g)
    Synced k₁.box k₁.inbox ∧ k₁.view = (Receiver.opened peerIsn ourIsn).receive policy4 g := by
  obtain ⟨hs, hview⟩ := @Conn.opened_syn k peerIsn ourIsn hk u o me
  refine ⟨(Tends.receive now _ g).synced hs, ?_⟩
  rw [← hview]
  exact Conn.view_receive hs

/-- A cookie opens the same connection as the SYN exactly if the next segment follows the SYN. -/
theorem cookie_handshake_iff (hk' : NextUnseen k'.box.generation k'.inbox k'.waystation) (u : Tuple)
    (peerIsn ourIsn now now' : Word) (o : Office) (me : Identity) (hack : g.isAck = true)
    (hnum : g.ack = ourIsn + 1) (es : List Stimulus) : let cookie := k.step (.cookie u now g)
    let ordinary := (k'.step (.syn u peerIsn ourIsn o me)).step (.segment now' g)
    (∀ n, SameConnection (run Conn.react cookie (es.take n))
        (run Conn.react ordinary ((es.take n).map .swap))) ↔
      g.seq = peerIsn + 1 := by
  intro cookie ordinary
  obtain ⟨hs, hview⟩ := view_cookie hk u now g
  obtain ⟨hs', hview'⟩ := view_ordinary hk' u peerIsn ourIsn o me now' g
  have hours : g.ack - 1 = ourIsn := by rw [hnum, add_sub_cancel]
  constructor
  · intro hsame
    by_contra hne
    have hstatus : cookie.view.status = ordinary.view.status := (hsame 0).status
    rw [hview, hview', Receiver.status_receive_opened hne] at hstatus
    exact Receiver.status_receive_established (by simp) hstatus
  · intro hseq
    have hpeer : g.seq - 1 = peerIsn := by rw [hseq, add_sub_cancel]
    have hstart : Mirrors cookie ordinary := by
      refine ⟨hs, hs', ?_, ?_⟩
      · rw [hview, hview', hpeer, hours, Receiver.receive_established hseq hack hnum]
      · rw [sendSeq_cookie]
        refine Eq.trans ?_ (outgoing_receive now' _ g).symm
        rw [sendSeq_syn, hnum]
    intro n
    have h := hstart.run (es.take n)
    exact ⟨congrArg Receiver.status h.view, congrArg Receiver.expectedSeq h.view,
      congrArg Prod.fst h.outgoing, congrArg Prod.snd h.outgoing, congrArg Receiver.unread h.view⟩

end

def completing (seq : Word) (data : List Byte) : Segment := ⟨1001, 80, seq, 101, 0x10, 4096, data⟩

theorem cookie_handshake_with_data :
    SameConnection (run Conn.react (Conn.step {} (.cookie ⟨80, samplePeer, 1001, 6⟩ 0
        (completing 8 [1, 2, 3]))) ([peerSegment 11 101 0x11 [4]].take 1))
      (run Conn.react (synReceived4.step (.segment 5 (completing 8 [1, 2, 3])))
        (([peerSegment 11 101 0x11 [4]].take 1).map .swap)) :=
  (@cookie_handshake_iff {} {} (completing 8 [1, 2, 3]) ⟨by decide, by decide⟩
    ⟨by decide, by decide⟩ ⟨80, samplePeer, 1001, 6⟩ 7 100 0 5 sampleOffice host4 rfl rfl
    [peerSegment 11 101 0x11 [4]]).mpr rfl 1

theorem cookie_starts_late :
    let cookie := Conn.step {} (.cookie ⟨80, samplePeer, 1001, 6⟩ 0 (completing 11 [4]))
    let ordinary := synReceived4.step (.segment 0 (completing 11 [4]))
    cookie.rapport.status = .established ∧ ordinary.rapport.status = .synReceived ∧
      cookie.rapport.expectedSeq = 12 ∧ ordinary.rapport.expectedSeq = 8 ∧
      unread cookie.box cookie.inbox = [4] ∧ unread ordinary.box ordinary.inbox = [] := by
  decide +kernel

end Aevros
