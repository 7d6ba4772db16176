import Aevros.Guarantees.Generations
import Aevros.Six.Conversation
import Aevros.Tcp.Receiver

/-! # Both stacks are receivers

The row of a connection shows a receiver, and `conversation_handle` and `conversation6_handle` do to
it what receivers with two different policies do.
-/

namespace Aevros

open WayStation

variable {k : Conn} {g : Segment} {data : List Byte} {i : Fin waystationMaxPending} {now : Word}

def HeldSegment.view (h : HeldSegment) : Option (Word × List Byte) :=
  if h.inUse then some (h.seq, h.data) else none

def Conn.view (k : Conn) : Receiver where
  inUse := k.box.inUse
  status := k.rapport.status
  expectedSeq := k.rapport.expectedSeq
  ourIsn := k.rapport.ourIsn
  ourFin := if k.rapport.status.awaitsFinAck then some k.rapport.ourFinSeq else none
  unread := unread k.box k.inbox
  held i := ((k.waystation.resetIfStale k.box.generation).slots i).view

theorem HeldSegment.map_fst_view_iff {h : HeldSegment} {seq : Word} :
    h.view.map Prod.fst = some seq ↔ h.inUse = true ∧ h.seq = seq := by
  unfold view
  cases h.inUse <;> simp

theorem HeldSegment.isNone_view (h : HeldSegment) : h.view.isNone = !h.inUse := by
  unfold view
  cases h.inUse <;> rfl

namespace Conn

@[simp] theorem view_setPeerWindow (k : Conn) (window : Port) :
    (rapportSetPeerWindow k window).view = k.view := rfl

theorem fits_view_iff (hs : Synced k.box k.inbox) : k.view.Fits data ↔ k.Fits data := by
  unfold Receiver.Fits Conn.Fits view
  rw [hs.length_unread]

theorem view_append (hs : Synced k.box k.inbox) (hf : k.Fits data) :
    (rapportAdvanceSeq (k.deposit data).2 data.length).view = k.view.append data := by
  have ha := (deposit_fst data).mpr hf
  have hunread := (hs.deposit ha).2
  have hbox := inboxDeposit_accepted ha
  unfold view rapportAdvanceSeq deposit Receiver.append
  dsimp only
  rw [hunread, hbox]

theorem view_refused (hf : ¬ k.Fits data) : (k.deposit data).2.view = k.view := by
  rw [deposit_refused hf]
  unfold view
  rw [unread_resetIfStale]

theorem view_resetWaystation (k : Conn) : k.resetWaystation.view = k.view := by
  unfold view resetWaystation
  rw [resetIfStale_idem]

section Seen

variable (hseen : k.waystation.seenGeneration = k.box.generation)

include hseen

theorem held_view (i : Fin waystationMaxPending) : k.view.held i = (k.waystation.slots i).view := by
  unfold view
  rw [resetIfStale_of_seen hseen]

theorem nextHeld_view : k.view.nextHeld = k.nextHeld := by
  unfold Receiver.nextHeld nextHeld
  congr 1
  funext i
  rw [held_view hseen, Bool.eq_iff_iff, decide_eq_true_eq, HeldSegment.map_fst_view_iff,
    Bool.and_eq_true, decide_eq_true_eq]
  rfl

theorem heldData_view (hi : k.nextHeld = some i) :
    k.view.heldData i = (k.waystation.slots i).data := by
  have hfound := Fin.eq_true_of_find?_eq_some hi
  rw [Bool.and_eq_true] at hfound
  rw [Receiver.heldData, held_view hseen, HeldSegment.view, if_pos hfound.1]
  rfl

theorem view_setHeld (i : Fin waystationMaxPending) (h : HeldSegment) :
    ({ k with waystation := { k.waystation with
        slots := Function.update k.waystation.slots i h } } : Conn).view =
      { k.view with held := Function.update k.view.held i h.view } := by
  unfold view
  rw [resetIfStale_of_seen hseen, resetIfStale_of_seen (by exact hseen)]
  congr 1
  funext j
  simp only [Function.update_apply]
  split_ifs <;> rfl

theorem view_dropHeld (i : Fin waystationMaxPending) : (k.dropHeld i).view = k.view.drop i :=
  view_setHeld hseen i _

end Seen

theorem view_drainRounds (n : ℕ) (hs : Synced k.box k.inbox)
    (hseen : k.waystation.seenGeneration = k.box.generation) :
    (drainRounds n k).view = k.view.drain n := by
  induction n generalizing k with
  | zero => rfl
  | succ n ih =>
    rw [drainRounds, Receiver.drain, nextHeld_view hseen]
    cases hi : k.nextHeld with
    | none => rfl
    | some i =>
      dsimp only
      rw [heldData_view hseen hi]
      by_cases hf : k.Fits (k.waystation.slots i).data
      · have hgen := (Delivered.deposit hf).generation
        have hseen' := hseen.trans hgen.symm
        have hrest := @ih ((rapportAdvanceSeq (k.deposit (k.waystation.slots i).data).2
          (k.waystation.slots i).data.length).dropHeld i) ((Tends.deposit k _).synced hs) hseen'
        rw [if_pos ((fits_view_iff hs).mpr hf), (deposit_fst _).mpr hf, if_neg (by decide), hrest,
          view_dropHeld hseen', view_append hs hf]
      · have hrefused : (k.deposit (k.waystation.slots i).data).1 = false := by
          rw [deposit_refused hf]
        rw [if_neg (mt (fits_view_iff hs).mp hf), hrefused]
        exact view_refused hf

theorem view_deliver (hs : Synced k.box k.inbox) : (k.deliver data).view = k.view.deliver data := by
  unfold deliver Receiver.deliver
  by_cases hdata : data.length = 0
  · rw [if_pos hdata, if_pos hdata]
  · rw [if_neg hdata, if_neg hdata]
    by_cases hf : k.Fits data
    · rw [if_pos ((deposit_fst data).mpr hf), if_pos ((fits_view_iff hs).mpr hf), waystationDrain,
        view_drainRounds _ ?_ (resetIfStale_seen _ _), view_resetWaystation,
        view_append hs hf]
      exact (Tends.deposit k data).synced hs
    · rw [if_neg (mt (deposit_fst data).mp hf), if_neg (mt (fits_view_iff hs).mp hf)]
      exact view_refused hf

theorem view_hold (k : Conn) (seq : Word) (data : List Byte) :
    (waystationHold k seq data).2.view = k.view.hold waystationMaxSegment seq data := by
  have hseen : k.resetWaystation.waystation.seenGeneration = k.resetWaystation.box.generation :=
    resetIfStale_seen _ _
  unfold waystationHold Receiver.hold
  by_cases hlen : data.length = 0 ∨ waystationMaxSegment < data.length
  · rw [if_pos hlen, if_pos hlen]
  · rw [← view_resetWaystation k]
    generalize k.resetWaystation = k at hseen ⊢
    have hfind : (fun i => decide ((k.view.held i).map Prod.fst = some seq)) =
        fun i => (k.waystation.slots i).inUse && (k.waystation.slots i).seq = seq := by
      funext i
      rw [held_view hseen, Bool.eq_iff_iff, decide_eq_true_eq, HeldSegment.map_fst_view_iff,
        Bool.and_eq_true, decide_eq_true_eq]
    have hfree : (fun i => (k.view.held i).isNone) = fun i => !(k.waystation.slots i).inUse := by
      funext i
      rw [held_view hseen, HeldSegment.isNone_view]
    rw [hfind, hfree]
    dsimp only
    split_ifs
    · rfl
    · cases Fin.find? fun i => !(k.waystation.slots i).inUse with
      | none => rfl
      | some i => exact view_setHeld hseen i ⟨seq, data, true⟩

theorem view_outOfOrder (k : Conn) (g : Segment) :
    (k.outOfOrder now g).2.view = k.view.outOfOrder waystationMaxSegment g := by
  have hack : (k.earlyAck now g).2.view = k.view := by
    unfold earlyAck
    split_ifs <;> rfl
  have hstale : rapportSeqIsStaleRetransmit k g.seq g.data.length = k.view.stale g := rfl
  unfold outOfOrder Receiver.outOfOrder
  rw [hstale]
  split_ifs with hold hdata
  · exact hack
  · rw [view_hold, hack]
  · rw [hack, Receiver.hold, if_pos (.inl (Nat.eq_zero_of_not_pos hdata))]

theorem view_setStatus {st st' : ConversationState} (hst : k.rapport.status = st)
    (h : st'.awaitsFinAck = st.awaitsFinAck) :
    (k.setStatus st').view = { k.view with status := st' } := by
  unfold view setStatus
  rw [hst, h]

theorem acksFin_view (h : k.rapport.status.awaitsFinAck = true) (ack : Word) :
    k.view.acksFin ack = decide (k.rapport.ourFinSeq + 1 ≤ ack) := by
  unfold view Receiver.acksFin
  rw [if_pos h]
  rfl

theorem view_onAck (k : Conn) (ack : Word) :
    (rapportOnAck now k ack).view = k.view.onAck true ack := by
  have hstatus : k.view.status = k.rapport.status := rfl
  unfold rapportOnAck Receiver.onAck
  rw [hstatus]
  cases hst : k.rapport.status with
  | synReceived =>
    have hest : (k.setStatus .established).view = { k.view with status := .established } :=
      view_setStatus hst rfl
    rw [apply_ite view, hest]
    simp only [true_and]
    rfl
  | finWait1 | closing | lastAck =>
    rw [apply_ite view, acksFin_view (by rw [hst]; rfl)]
    simp only [decide_eq_true_eq]
    rfl
  | _ => rfl

theorem view_onFin (k : Conn) : (rapportOnFin now k).view = k.view.onFin := by
  have hstatus : k.view.status = k.rapport.status := rfl
  unfold rapportOnFin Receiver.onFin
  rw [hstatus]
  cases hst : k.rapport.status with
  | established | finWait1 | finWait2 => exact view_setStatus (k := rapportAdvanceSeq k 1) hst rfl
  | _ => rfl

theorem view_onRst (k : Conn) : (rapportOnRst k).view = k.view.onRst := by
  unfold rapportOnRst Receiver.onRst
  rw [apply_ite view]
  rfl

theorem view_inOrder (hs : Synced k.box k.inbox) : (k.inOrder now g).2.view =
    let r := (k.view.takeAck true g).deliver g.data
    if g.fin then r.onFin else r := by
  have hack : (k.takeAck now g).2.view = k.view.takeAck true g := by
    unfold takeAck Receiver.takeAck
    split_ifs
    · exact view_onAck _ _
    · rfl
  have hsynced : Synced (k.takeAck now g).2.box (k.takeAck now g).2.inbox := by
    unfold takeAck
    split_ifs
    · exact (Tends.rapportOnAck now k g.ack).synced hs
    · exact hs
  unfold inOrder
  rw [apply_ite view, view_onFin, view_deliver hsynced, hack]

theorem view_receive (hs : Synced k.box k.inbox) : (conversationReceive now k g).2.view =
      k.view.receive ⟨true, false, waystationMaxSegment⟩ g := by
  have hexpected : (rapportSetPeerWindow k g.window).rapport.expectedSeq = k.view.expectedSeq :=
    rfl
  unfold conversationReceive Receiver.receive
  dsimp only
  rw [Bool.false_and, if_neg Bool.false_ne_true, hexpected, apply_ite Prod.snd, apply_ite view,
    apply_ite Prod.snd, apply_ite view, view_outOfOrder, view_inOrder (by exact hs)]
  rw [view_onRst, view_setPeerWindow]

end Conn

/-! ## The IPv6 stack

Apart from its addresses and its scheduler, a row of the IPv6 stack is a row of the IPv4
stack, and most functions do the same to both. -/

def Lockbox6Entry.account (e : Lockbox6Entry) : LockboxEntry where
  bufferedBytes := e.bufferedBytes
  inUse := e.inUse
  generation := e.generation

section Account

variable (e : Lockbox6Entry) (b : Inbox)

theorem lockboxDeposit_account (bytes : ℕ) : lockboxDeposit e.account bytes =
    ((lockbox6Deposit e bytes).1, (lockbox6Deposit e bytes).2.account) := by
  unfold lockbox6Deposit lockboxDeposit Lockbox6Entry.account
  by_cases hu : e.inUse = true
  · by_cases hmax : lockboxMaxBuffered < e.bufferedBytes + bytes
    · simp [hmax]
    · simp [hu, hmax]
  · simp [hu]

theorem inboxDeposit_account (payload : List Byte) : inboxDeposit e.account b payload =
    ((inbox6Deposit e b payload).1, (inbox6Deposit e b payload).2.1.account,
      (inbox6Deposit e b payload).2.2) := by
  unfold inboxDeposit inbox6Deposit
  rw [lockboxDeposit_account]
  generalize lockbox6Deposit e payload.length = r
  obtain ⟨_ | _, e'⟩ := r
  · rfl
  · rfl

theorem inboxRead_account (maxLen : ℕ) : inboxRead e.account b maxLen =
    ((inbox6Read e b maxLen).1, (inbox6Read e b maxLen).2.1.account,
      (inbox6Read e b maxLen).2.2) := by
  unfold inboxRead inbox6Read lockbox6Consume lockboxConsume
  dsimp only
  rw [apply_ite Lockbox6Entry.account, apply_ite Lockbox6Entry.account]
  rfl

end Account

namespace Conn6

def row (k : Conn6) : Conn where
  box := k.box.account
  inbox := k.inbox
  waystation := k.waystation
  rapport := k.rapport

def view (k : Conn6) : Receiver := k.row.view

variable {k : Conn6}

theorem row_deposit (k : Conn6) (data : List Byte) :
    k.row.deposit data = ((k.deposit data).1, (k.deposit data).2.row) := by
  unfold deposit Conn.deposit
  dsimp only [row]
  rw [inboxDeposit_account]

theorem row_read (k : Conn6) (maxLen : ℕ) :
    k.row.read maxLen = ((k.read maxLen).1, (k.read maxLen).2.row) := by
  unfold read Conn.read
  dsimp only [row]
  rw [inboxRead_account]

theorem row_drainRounds6 (n : ℕ) (k : Conn6) : (drainRounds6 n k).row = drainRounds n k.row := by
  induction n generalizing k with
  | zero => rfl
  | succ n ih =>
    have hnext : k.row.nextHeld = k.nextHeld := rfl
    rw [drainRounds6, drainRounds, hnext]
    cases k.nextHeld with
    | none => rfl
    | some i =>
      have hdeposit := row_deposit k (k.waystation.slots i).data
      have hslots : k.row.waystation.slots = k.waystation.slots := rfl
      dsimp only
      rw [hslots, hdeposit, apply_ite row, ih]
      rfl

theorem row_deliver (k : Conn6) (data : List Byte) : (k.deliver data).row = k.row.deliver data := by
  unfold deliver Conn.deliver
  rw [row_deposit, apply_ite row, apply_ite row, waystation6Drain, row_drainRounds6]
  rfl

theorem row_onFin (now : Word) (k : Conn6) :
    (rapport6OnFin now k).row = rapportOnFin now k.row := by
  have hstatus : k.row.rapport.status = k.rapport.status := rfl
  unfold rapport6OnFin rapportOnFin
  rw [hstatus]
  cases k.rapport.status with
  | _ => rfl

theorem row_onRst (k : Conn6) : (rapport6OnRst k).row = rapportOnRst k.row := by
  unfold rapport6OnRst rapportOnRst
  rw [apply_ite row]
  rfl

theorem row_hold {data : List Byte} (hlen : data.length ≤ waystation6MaxSegment) (k : Conn6)
    (seq : Word) : (waystation6Hold k seq data).2.row = (waystationHold k.row seq data).2 := by
  have hle : waystation6MaxSegment ≤ waystationMaxSegment := by decide
  unfold waystation6Hold waystationHold
  by_cases hnil : data.length = 0
  · rw [if_pos (.inl hnil), if_pos (.inl hnil)]
  · have hshort : ¬ (data.length = 0 ∨ waystationMaxSegment < data.length) := by omega
    have hshort6 : ¬ (data.length = 0 ∨ waystation6MaxSegment < data.length) := by omega
    rw [if_neg hshort, if_neg hshort6]
    have hfree : (Fin.find? fun i => !(k.row.resetWaystation.waystation.slots i).inUse) =
        Fin.find? fun i => !(k.resetWaystation.waystation.slots i).inUse := rfl
    by_cases hheld : (Fin.find? fun i => (k.resetWaystation.waystation.slots i).inUse &&
        (k.resetWaystation.waystation.slots i).seq = seq).isSome = true
    · rw [if_pos hheld, if_pos (by exact hheld)]
      rfl
    · rw [if_neg hheld, if_neg (by exact hheld), hfree]
      cases Fin.find? fun i => !(k.resetWaystation.waystation.slots i).inUse with
      | none => rfl
      | some i => rfl

theorem view_hold (k : Conn6) (seq : Word) (data : List Byte) :
    (waystation6Hold k seq data).2.view = k.view.hold waystation6MaxSegment seq data := by
  have hmax : waystation6MaxSegment ≤ waystationMaxSegment := by decide
  by_cases hlen : data.length ≤ waystation6MaxSegment
  · rw [view, row_hold hlen, Conn.view_hold]
    exact Receiver.hold_congr (by omega) _ _
  · have hlong : data.length = 0 ∨ waystation6MaxSegment < data.length := .inr (by omega)
    rw [waystation6Hold, Receiver.hold, if_pos hlong, if_pos hlong]

theorem view_outOfOrder (k : Conn6) (g : Segment) :
    (k.outOfOrder g).view = k.view.outOfOrder waystation6MaxSegment g := by
  have hstale : rapport6SeqIsStaleRetransmit k g.seq g.data.length = k.view.stale g := rfl
  unfold outOfOrder Receiver.outOfOrder
  rw [hstale]
  split_ifs with hold hdata
  · rfl
  · exact view_hold k g.seq g.data
  · rw [Receiver.hold, if_pos (.inl (Nat.eq_zero_of_not_pos hdata))]

theorem view_onAck (now : Word) (k : Conn6) (ack : Word) :
    (rapport6OnAck now k ack).view = k.view.onAck false ack := by
  have hstatus : k.view.status = k.rapport.status := rfl
  have hacks : k.rapport.status.awaitsFinAck = true →
      k.view.acksFin ack = decide (k.rapport.ourFinSeq + 1 ≤ ack) :=
    fun h => Conn.acksFin_view (k := k.row) h ack
  unfold rapport6OnAck Receiver.onAck
  rw [hstatus]
  cases hst : k.rapport.status with
  | synReceived => exact Conn.view_setStatus (k := k.row) hst rfl
  | finWait1 | closing | lastAck =>
    rw [apply_ite view, hacks (by rw [hst]; rfl)]
    simp only [decide_eq_true_eq]
    rfl
  | _ => rfl

theorem view_takeAck (now : Word) (k : Conn6) (g : Segment) :
    (k.takeAck now g).2.view = k.view.takeAck false g := by
  unfold takeAck Receiver.takeAck
  split_ifs
  · exact view_onAck now k g.ack
  · rfl

theorem tends_takeAck (now : Word) (k : Conn6) (g : Segment) :
    Tends k.row (k.takeAck now g).2.row := by
  have hack : Tends k.row (rapport6OnAck now k g.ack).row := by
    unfold rapport6OnAck
    split
    all_goals try split_ifs
    all_goals first
      | exact .refl _
      | exact Tends.letGo k.row
      | exact Tends.other k.row _ k.row.scheduler
  unfold takeAck
  split_ifs
  · exact hack
  · exact .refl _

theorem tends_outOfOrder (k : Conn6) (g : Segment) : Tends k.row (k.outOfOrder g).row := by
  unfold outOfOrder
  split_ifs
  · exact .refl _
  · by_cases hlen : g.data.length ≤ waystation6MaxSegment
    · rw [row_hold hlen]
      exact .hold _ _ _
    · rw [waystation6Hold, if_pos (.inr (by omega))]
      exact .refl _
  · exact .refl _

theorem view_receive {now : Word} (hs : Synced k.row.box k.row.inbox) :
    (conversation6Receive now k g).2.view =
      k.view.receive ⟨false, true, waystation6MaxSegment⟩ g := by
  have hexpected : (rapport6SetPeerWindow k g.window).rapport.expectedSeq = k.view.expectedSeq :=
    rfl
  unfold conversation6Receive Receiver.receive
  dsimp only
  rw [hexpected, Bool.true_and]
  split_ifs with hseq hrst hfin
  · exact view_outOfOrder _ g
  · rw [view, row_onRst, Conn.view_onRst]
    rfl
  · rw [view, row_onFin, Conn.view_onFin]
    rfl
  · have hsynced := (tends_takeAck now (rapport6SetPeerWindow k g.window) g).synced hs
    rw [view, row_deliver, Conn.view_deliver hsynced, ← view, view_takeAck]
    rfl

theorem tends_receive (now : Word) (k : Conn6) (g : Segment) :
    Tends k.row (conversation6Receive now k g).2.row := by
  have hwindow : Tends k.row (rapport6SetPeerWindow k g.window).row :=
    .other k.row _ k.row.scheduler
  unfold conversation6Receive
  dsimp only
  split_ifs
  · exact hwindow.trans (tends_outOfOrder _ g)
  · rw [row_onRst]
    exact hwindow.trans (.rapportOnRst _)
  · rw [row_onFin]
    exact hwindow.trans (.rapportOnFin now _)
  · rw [row_deliver]
    exact (hwindow.trans (tends_takeAck now _ g)).trans (.deliver _ _)

end Conn6

end Aevros
