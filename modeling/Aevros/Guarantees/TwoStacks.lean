import Aevros.Guarantees.Receivers

/-! # The two stacks side by side

A connection of each stack goes through the same states as long as the right acknowledgement
completes the handshake, a FIN comes alone, and both hold the same segments.
-/

namespace Aevros

open Runs Conn Prod

def policy4 : Policy := ⟨true, false, waystationMaxSegment⟩

def policy6 : Policy := ⟨false, true, waystation6MaxSegment⟩

/-- A segment that comes in at the times `now` and `now6`, or a read of at most `maxLen` bytes. -/
inductive Stimulus
  | segment (now now6 : Word) (g : Segment)
  | read (maxLen : ℕ)

/-- The segment is not longer than what an IPv6 frame carries. -/
def Stimulus.Short : Stimulus → Prop
  | .segment _ _ g => g.data.length ≤ waystation6MaxSegment
  | .read _ => True

namespace Receiver

/-- After the slot was released, a segment finds no connection. -/
def react (p : Policy) (r : Receiver) : Stimulus → Receiver
  | .segment _ _ g => if r.inUse then r.receive p g else r
  | .read maxLen => { r with unread := r.unread.drop maxLen }

def InOrder (r : Receiver) (g : Segment) : Prop := g.seq = r.expectedSeq ∧ g.rst = false

/-- The segments that both stacks take alike. -/
structure TakenAlike (r : Receiver) (g : Segment) : Prop where
  /-- A segment out of order is short enough for both holding areas, or too long for both. -/
  early : g.seq ≠ r.expectedSeq → r.stale g = true ∨
    g.data.length ≤ waystation6MaxSegment ∨ waystationMaxSegment < g.data.length
  /-- A FIN brings no bytes for which there is room. -/
  payload : r.InOrder g → g.fin = true → g.data = [] ∨ ¬ r.Fits g.data
  /-- The acknowledgement on a FIN makes no difference. -/
  ack : r.InOrder g → g.fin = true → g.isAck = true → (r.onAck true g.ack).status = r.status
  handshake : r.InOrder g → g.fin = false → r.status = .synReceived → g.isAck = true →
    g.ack = r.ourIsn + 1

def HandledAlike (r : Receiver) : Stimulus → Prop
  | .segment _ _ g => r.inUse = true → r.TakenAlike g
  | .read _ => True

variable {r : Receiver} {g : Segment}

theorem onAck_of_status {checksAck : Bool} {ack : Word}
    (h : (r.onAck checksAck ack).status = r.status) : r.onAck checksAck ack = r := by
  unfold onAck at h ⊢
  cases hst : r.status with
  | synReceived | finWait1 | closing | lastAck =>
    rw [hst] at h
    split_ifs at h ⊢ with hack
    all_goals first | rfl | cases h
  | _ => rfl

theorem takeAck_of_status {checksAck : Bool}
    (h : g.isAck = true → (r.onAck checksAck g.ack).status = r.status) :
    r.takeAck checksAck g = r := by
  unfold takeAck
  split_ifs with hack
  · exact onAck_of_status (h hack)
  · rfl

theorem outOfOrder_alike (h : r.stale g = true ∨ g.data.length ≤ waystation6MaxSegment ∨
      waystationMaxSegment < g.data.length) :
    r.outOfOrder waystationMaxSegment g = r.outOfOrder waystation6MaxSegment g := by
  have hmax : waystation6MaxSegment ≤ waystationMaxSegment := by decide
  unfold outOfOrder
  split_ifs with hstale
  · rfl
  · exact hold_congr (by grind) r g.seq

theorem takeAck_alike (h : r.status = .synReceived → g.isAck = true → g.ack = r.ourIsn + 1) :
    r.takeAck true g = r.takeAck false g := by
  unfold takeAck
  split_ifs with hack
  · unfold onAck
    cases hst : r.status with
    | synReceived => simp [h hst hack]
    | _ => rfl
  · rfl

theorem receive_policy4 (r : Receiver) (g : Segment) : r.receive policy4 g =
    if g.seq ≠ r.expectedSeq then r.outOfOrder waystationMaxSegment g
    else if g.rst then r.onRst
    else if g.fin then ((r.takeAck true g).deliver g.data).onFin
    else (r.takeAck true g).deliver g.data := by
  unfold receive policy4
  rw [Bool.false_and, if_neg Bool.false_ne_true]

theorem receive_policy6 (r : Receiver) (g : Segment) : r.receive policy6 g =
    if g.seq ≠ r.expectedSeq then r.outOfOrder waystation6MaxSegment g
    else if g.rst then r.onRst
    else if g.fin then r.onFin
    else (r.takeAck false g).deliver g.data := by
  unfold receive policy6
  rw [Bool.true_and]
  split_ifs <;> rfl

theorem react_alike {e : Stimulus} (h : r.HandledAlike e) :
    r.react policy4 e = r.react policy6 e := by
  cases e with
  | read maxLen => rfl
  | segment now now6 g =>
    unfold react
    dsimp only
    split_ifs with hu
    · have hg := h hu
      rw [receive_policy4, receive_policy6]
      split_ifs with hseq hrst hfin
      · exact outOfOrder_alike (hg.early hseq)
      · rfl
      · have hin : r.InOrder g := ⟨not_not.mp hseq, Bool.eq_false_of_not_eq_true hrst⟩
        rw [takeAck_of_status (hg.ack hin hfin), deliver_of_not_fits (hg.payload hin hfin)]
      · have hin : r.InOrder g := ⟨not_not.mp hseq, Bool.eq_false_of_not_eq_true hrst⟩
        rw [takeAck_alike (hg.handshake hin (Bool.eq_false_of_not_eq_true hfin))]
    · rfl

def shown (r : Receiver) : ConversationState × Word × List Byte :=
  (r.status, r.expectedSeq, r.unread)

theorem status_of_onFin {checksAck : Bool} {ack : Word}
    (h : (r.onAck checksAck ack).onFin.status = r.onFin.status) :
    (r.onAck checksAck ack).status = r.status := by
  unfold onAck at h ⊢
  cases hst : r.status with
  | synReceived | finWait1 | closing | lastAck =>
    split_ifs at h ⊢ with hack
    all_goals first | exact hst | (simp [onFin, hst, close] at h)
  | _ => exact hst

theorem fin_alike (h : ((r.takeAck true g).deliver g.data).onFin.shown = r.onFin.shown) :
    (g.data = [] ∨ ¬ r.Fits g.data) ∧
      (g.isAck = true → (r.onAck true g.ack).status = r.status) := by
  obtain ⟨hstatus, hrest⟩ := Prod.ext_iff.mp h
  have hunread : ((r.takeAck true g).deliver g.data).unread = r.unread := by
    have hu := congrArg snd hrest
    exact (unread_onFin _).symm.trans (hu.trans (unread_onFin r))
  have hnone : g.data = [] ∨ ¬ (r.takeAck true g).Fits g.data := by
    by_contra hsome
    rw [not_or, not_not] at hsome
    have hlt := length_unread_lt_deliver hsome.1 hsome.2
    rw [hunread, unread_takeAck] at hlt
    exact lt_irrefl _ hlt
  have hack : g.isAck = true → (r.onAck true g.ack).status = r.status := by
    intro hack
    rw [deliver_of_not_fits hnone, takeAck, if_pos hack] at hstatus
    exact status_of_onFin hstatus
  rw [takeAck_of_status hack] at hnone
  exact ⟨hnone, hack⟩

theorem handledAlike_of_shown {e : Stimulus} (hshort : e.Short)
    (h : (r.react policy4 e).shown = (r.react policy6 e).shown) : r.HandledAlike e := by
  cases e with
  | read maxLen => trivial
  | segment now now6 g =>
    intro hu
    unfold react at h
    dsimp only at h
    rw [if_pos hu, if_pos hu, receive_policy4, receive_policy6] at h
    have hfin : r.InOrder g → g.fin = true → (g.data = [] ∨ ¬ r.Fits g.data) ∧
        (g.isAck = true → (r.onAck true g.ack).status = r.status) := by
      rintro ⟨hseq, hrst⟩ hfin
      simp only [hseq, hrst, hfin, ne_eq] at h
      exact fin_alike h
    refine ⟨fun _ => .inr (.inl hshort), fun hin hf => (hfin hin hf).1,
      fun hin hf => (hfin hin hf).2, ?_⟩
    rintro ⟨hseq, hrst⟩ hnofin hst hack
    simp only [hseq, hrst, hnofin, ne_eq] at h
    by_contra hne
    have hstays : (r.takeAck true g).status = .synReceived := by
      rw [takeAck, if_pos hack, onAck, hst]
      rw [if_pos ⟨rfl, hne⟩, hst]
    have hmoves : (r.takeAck false g).status = .established := by
      rw [takeAck, if_pos hack, onAck, hst]
      rfl
    have hstatus : ((r.takeAck true g).deliver g.data).status =
        ((r.takeAck false g).deliver g.data).status := congrArg fst h
    rw [status_deliver, status_deliver, hstays, hmoves] at hstatus
    cases hstatus

def opened (peerIsn ourIsn : Word) : Receiver :=
  ⟨true, .synReceived, peerIsn + 1, ourIsn, none, [], fun _ => none⟩

end Receiver

def Conn.react (k : Conn) : Stimulus → Conn
  | .segment now _ g => if k.box.inUse then (conversationReceive now k g).2 else k
  | .read maxLen => (k.read maxLen).2

def Conn6.react (k : Conn6) : Stimulus → Conn6
  | .segment _ now6 g => if k.box.inUse then (conversation6Receive now6 k g).2 else k
  | .read maxLen => (k.read maxLen).2

structure NextUnseen (generation : Word) (b : Inbox) (w : WayStation) : Prop where
  inbox : b.seenGeneration ≠ generation + 1
  waystation : w.seenGeneration ≠ generation + 1

namespace Conn

variable {k : Conn} {peerIsn ourIsn : Word}

theorem view_read (hs : Synced k.box k.inbox) (maxLen : ℕ) :
    (k.read maxLen).2.view = { k.view with unread := k.view.unread.drop maxLen } := by
  obtain ⟨m, -, hbox⟩ := k.read_box maxLen
  have hunread : unread (k.read maxLen).2.box (k.read maxLen).2.inbox =
      (unread k.box k.inbox).drop maxLen := (hs.read maxLen).2.2
  unfold view
  rw [hunread, hbox]
  rfl

theorem synced_react (k : Conn) (e : Stimulus) (hs : Synced k.box k.inbox) :
    Synced (k.react e).box (k.react e).inbox := by
  cases e with
  | segment now now6 g =>
    unfold react
    split_ifs
    · exact (Tends.receive now k g).synced hs
    · exact hs
  | read maxLen => exact (hs.read maxLen).1

theorem view_react (k : Conn) (e : Stimulus) (hs : Synced k.box k.inbox) :
    (k.react e).view = k.view.react policy4 e := by
  cases e with
  | segment now now6 g =>
    unfold react Receiver.react
    rw [apply_ite view, view_receive hs]
    rfl
  | read maxLen => exact view_read hs maxLen

theorem view_receiveWindow (k : Conn) : (waystationReceiveWindow k).2.view = k.view := by
  unfold waystationReceiveWindow inboxAvailable resetWaystation view
  rw [unread_resetIfStale, WayStation.resetIfStale_idem]

theorem onSyn_claim (h : NextUnseen k.box.generation k.inbox k.waystation) (u : Tuple)
    (peerIsn ourIsn : Word) :
    Synced (rapportOnSyn (k.claim u) peerIsn ourIsn).box
        (rapportOnSyn (k.claim u) peerIsn ourIsn).inbox ∧
      (rapportOnSyn (k.claim u) peerIsn ourIsn).view = .opened peerIsn ourIsn := by
  have hempty : Synced (k.claim u).box k.inbox ∧ unread (k.claim u).box k.inbox = [] :=
    synced_of_stale h.inbox rfl
  have hheld : (fun i => ((k.waystation.resetIfStale (k.box.generation + 1)).slots i).view) =
      fun _ => none := by
    rw [WayStation.resetIfStale, if_pos h.waystation]
    rfl
  refine ⟨hempty.1, ?_⟩
  unfold Receiver.opened
  rw [← hempty.2, ← hheld]
  rfl

theorem opened_syn (h : NextUnseen k.box.generation k.inbox k.waystation) (u : Tuple) (o : Office)
    (me : Identity) :
    Synced (k.step (.syn u peerIsn ourIsn o me)).box (k.step (.syn u peerIsn ourIsn o me)).inbox ∧
      (k.step (.syn u peerIsn ourIsn o me)).view = .opened peerIsn ourIsn := by
  obtain ⟨hs, hview⟩ := onSyn_claim h u peerIsn ourIsn
  have htends := Tends.dispatchTracked o (rapportOnSyn (k.claim u) peerIsn ourIsn)
    (flagSyn ||| flagAck) ourIsn (peerIsn + 1) [] 1 me
  refine ⟨htends.synced hs, ?_⟩
  obtain ⟨p, hrow | hrow, -⟩ := dispatchTracked_cases o (rapportOnSyn (k.claim u) peerIsn ourIsn)
    (flagSyn ||| flagAck) ourIsn (peerIsn + 1) [] 1 me
  · exact (congrArg view hrow).trans hview
  · exact (congrArg view hrow).trans ((view_receiveWindow _).trans hview)

end Conn

namespace Conn6

variable {k : Conn6} {peerIsn ourIsn : Word}

theorem synced_react (k : Conn6) (e : Stimulus) (hs : Synced k.row.box k.row.inbox) :
    Synced (k.react e).row.box (k.react e).row.inbox := by
  cases e with
  | segment now now6 g =>
    unfold react
    split_ifs
    · exact (tends_receive now6 k g).synced hs
    · exact hs
  | read maxLen =>
    have hrow : (k.row.read maxLen).2 = (k.read maxLen).2.row :=
      congrArg snd (row_read k maxLen)
    dsimp only [react]
    rw [← hrow]
    exact (hs.read maxLen).1

theorem view_react (k : Conn6) (e : Stimulus) (hs : Synced k.row.box k.row.inbox) :
    (k.react e).view = k.view.react policy6 e := by
  cases e with
  | segment now now6 g =>
    unfold react Receiver.react
    rw [apply_ite view, view_receive hs]
    rfl
  | read maxLen =>
    have hrow : (k.row.read maxLen).2 = (k.read maxLen).2.row :=
      congrArg snd (row_read k maxLen)
    dsimp only [react, view]
    rw [← hrow]
    exact view_read hs maxLen

theorem row_dispatch (o : Office) (r : Rolodex6) (k : Conn6) (flags : Byte) (seq ack : Word)
    (payload : List Byte) (me : Identity6) :
    (conversation6Dispatch o r k flags seq ack payload me).2.2.row = k.row ∨
      (conversation6Dispatch o r k flags seq ack payload me).2.2.row =
        (waystationReceiveWindow k.row).2 := by
  unfold conversation6Dispatch
  split_ifs
  · exact .inl rfl
  · exact .inl rfl
  · exact .inl rfl
  · cases rolodex6Lookup r k.box.remoteIp with
    | none => exact .inl rfl
    | some destMac => exact .inr rfl

theorem row_dispatchSynAck (o : Office) (r : Rolodex6) (k : Conn6) (me : Identity6) :
    (conversation6DispatchSynAck o r k me).2.2.row = k.row ∨
      (conversation6DispatchSynAck o r k me).2.2.row = (waystationReceiveWindow k.row).2 := by
  have hrow := row_dispatch o r k (flagSyn ||| flagAck) k.rapport.ourIsn k.rapport.expectedSeq [] me
  unfold conversation6DispatchSynAck
  generalize conversation6Dispatch o r k (flagSyn ||| flagAck) k.rapport.ourIsn
    k.rapport.expectedSeq [] me = t at hrow ⊢
  obtain ⟨_ | sent, o', k'⟩ := t
  · exact hrow
  · exact hrow

theorem opened_syn (h : NextUnseen k.box.generation k.inbox k.waystation) (u : Tuple6) (o : Office)
    (r : Rolodex6) (me : Identity6) :
    Synced (k.opened u peerIsn ourIsn o r me).row.box (k.opened u peerIsn ourIsn o r me).row.inbox ∧
      (k.opened u peerIsn ourIsn o r me).view = .opened peerIsn ourIsn := by
  -- the IPv4 row of the slot is claimed for an empty tuple
  obtain ⟨hs, hview⟩ := onSyn_claim (k := k.row) h ⟨0, .zero, 0, 0⟩ peerIsn ourIsn
  unfold view opened
  rcases row_dispatchSynAck o r (rapport6OnSyn (k.claim u) peerIsn ourIsn) me with hrow | hrow
  · rw [hrow]
    exact ⟨hs, hview⟩
  · rw [hrow, view_receiveWindow]
    exact ⟨(Tends.receiveWindow _).synced hs, hview⟩

end Conn6

/-- The same state, the same expected number and the same bytes for the reader. -/
structure Agree (k : Conn) (k6 : Conn6) : Prop where
  status : k6.rapport.status = k.rapport.status
  expectedSeq : k6.rapport.expectedSeq = k.rapport.expectedSeq
  unread : unread k6.box.account k6.inbox = unread k.box k.inbox

theorem agree_iff {k : Conn} {k6 : Conn6} : Agree k k6 ↔ k.view.shown = k6.view.shown := by
  constructor
  · intro h
    exact Prod.ext h.status.symm (Prod.ext h.expectedSeq.symm h.unread.symm)
  · intro h
    obtain ⟨hstatus, hrest⟩ := Prod.ext_iff.mp h
    obtain ⟨hexpected, hunread⟩ := Prod.ext_iff.mp hrest
    exact ⟨hstatus.symm, hexpected.symm, hunread.symm⟩

/-- Both connections agree at all times exactly if all steps are taken alike. -/
theorem stacks_agree_iff {k : Conn} {k6 : Conn6}
    (hk : NextUnseen k.box.generation k.inbox k.waystation)
    (hk6 : NextUnseen k6.box.generation k6.inbox k6.waystation) (u : Tuple) (u6 : Tuple6)
    (peerIsn ourIsn : Word) (o o6 : Office) (r : Rolodex6) (me : Identity) (me6 : Identity6)
    (es : List Stimulus) :
    let s := k.step (.syn u peerIsn ourIsn o me)
    let s6 := k6.opened u6 peerIsn ourIsn o6 r me6
    (Along Conn.react (fun k e => k.view.HandledAlike e) s es →
      ∀ n, Agree (run Conn.react s (es.take n)) (run Conn6.react s6 (es.take n))) ∧
    ((∀ e ∈ es, e.Short) →
      (∀ n, Agree (run Conn.react s (es.take n)) (run Conn6.react s6 (es.take n))) →
      Along Conn.react (fun k e => k.view.HandledAlike e) s es) := by
  obtain ⟨hs, hview⟩ := opened_syn hk u o me
  obtain ⟨hs6, hview6⟩ := Conn6.opened_syn hk6 u6 o6 r me6
  dsimp only
  have hagree : ∀ fs, Agree (run Conn.react (k.step (.syn u peerIsn ourIsn o me)) fs)
      (run Conn6.react (k6.opened u6 peerIsn ourIsn o6 r me6) fs) ↔
      (run (Receiver.react policy4) (.opened peerIsn ourIsn) fs).shown =
        (run (Receiver.react policy6) (.opened peerIsn ourIsn) fs).shown := by
    intro fs
    rw [agree_iff, map_run synced_react view_react hs fs, hview,
      map_run Conn6.synced_react Conn6.view_react hs6 fs, hview6]
  rw [along_map synced_react view_react hs es, hview]
  simp only [hagree]
  constructor
  · intro h n
    rw [(h.take n).run_eq fun _ _ => Receiver.react_alike]
  · intro hshort h
    exact along_of_observed (fun _ _ => Receiver.react_alike)
      (fun _ _ => Receiver.handledAlike_of_shown) hshort h

def host4 : Identity := ⟨sampleOffice.frontdesk.mac, sampleIp⟩

def host6 : Identity6 := ⟨sampleOffice.frontdesk.mac, linkLocal 1⟩

def synReceived4 : Conn :=
  Conn.step {} (.syn ⟨80, samplePeer, 1001, 6⟩ 7 100 sampleOffice host4)

def synReceived6 : Conn6 :=
  Conn6.opened {} ⟨80, linkLocal 2, 1001, 6⟩ 7 100 sampleOffice echoRolodex host6

def peerSegment (seq ack : Word) (flags : Byte) (data : List Byte) : Stimulus :=
  .segment 0 0 ⟨1001, 80, seq, ack, flags, 4096, data⟩

theorem acknowledged_alike :
    Agree (run Conn.react synReceived4 ([peerSegment 8 101 0x10 [1, 2, 3]].take 1))
      (run Conn6.react synReceived6 ([peerSegment 8 101 0x10 [1, 2, 3]].take 1)) := by
  refine (@stacks_agree_iff {} {} ⟨by decide, by decide⟩ ⟨by decide, by decide⟩
    ⟨80, samplePeer, 1001, 6⟩ ⟨80, linkLocal 2, 1001, 6⟩ 7 100 sampleOffice sampleOffice
    echoRolodex host4 host6 [peerSegment 8 101 0x10 [1, 2, 3]]).1 ?_ 1
  refine ⟨fun _ => ⟨fun hne => ?_, fun _ hfin => ?_, fun _ hfin => ?_, fun _ _ _ _ => ?_⟩, trivial⟩
  · exact absurd (by decide +kernel) hne
  · cases hfin
  · cases hfin
  · decide +kernel

theorem forged_ack_opens_and_last_bytes_lost :
    (synReceived4.react (peerSegment 8 0 0x10 [])).rapport.status = .synReceived ∧
    (synReceived6.react (peerSegment 8 0 0x10 [])).rapport.status = .established ∧
    let es := [peerSegment 8 101 0x10 [], peerSegment 8 101 0x11 [1, 2, 3]]
    let k := run Conn.react synReceived4 es
    let k6 := run Conn6.react synReceived6 es
    k.rapport.status = .closeWait ∧ k6.rapport.status = .closeWait ∧
    k.rapport.expectedSeq = 12 ∧ k6.rapport.expectedSeq = 9 ∧
    unread k.box k.inbox = [1, 2, 3] ∧ unread k6.box.account k6.inbox = [] := by
  decide +kernel

end Aevros
