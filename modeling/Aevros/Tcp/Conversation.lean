import Aevros.Office.Transmit
import Aevros.Tcp.Connection

/-! # Conversation: segments in and out of one connection

What `conversation_handle` does to a connection, the dispatch functions and the SwitchBoard calls on
top of them. An effect on the shared office is returned beside the new row.
-/

namespace Aevros

structure Identity where
  mac : Mac := {}
  ip : Ip4 := .zero
  deriving DecidableEq

section

variable (now : Word) (k : Conn)

def Conn.ack (acked : Word) : Option Frame × Conn :=
  let r := schedulerAck now k.scheduler acked
  (r.1, k.setScheduler r.2)

def Conn.deliver (data : List Byte) : Conn :=
  if data.length = 0 then k
  else
    let r := k.deposit data
    if r.1 then waystationDrain (rapportAdvanceSeq r.2 data.length) else r.2

section

variable (g : Segment)

def Conn.earlyAck : Option Frame × Conn :=
  if g.isAck && g.ack ≤ k.rapport.sendSeq then k.ack now g.ack else (none, k)

def Conn.outOfOrder : Option Frame × Conn :=
  let r := k.earlyAck now g
  if rapportSeqIsStaleRetransmit k g.seq g.data.length then r
  else if 0 < g.data.length then (r.1, (waystationHold r.2 g.seq g.data).2)
  else r

def Conn.takeAck : Option Frame × Conn :=
  if g.isAck then (rapportOnAck now k g.ack).ack now g.ack else (none, k)

def Conn.inOrder : Option Frame × Conn :=
  let r := k.takeAck now g
  let k := r.2.deliver g.data
  (r.1, if g.fin then rapportOnFin now k else k)

def conversationReceive : Option Frame × Conn :=
  let k := rapportSetPeerWindow k g.window
  if g.seq ≠ k.rapport.expectedSeq then k.outOfOrder now g
  else if g.rst then (none, rapportOnRst k)
  else k.inOrder now g

def conversationAnswer : Conn :=
  if g.rst then rapportOnRst k
  else if g.syn && g.isAck then (rapportOnSynAck k g.seq g.ack).2
  else k

end

section

variable (o : Office)

section

variable (k : Conn)

/-- The pass and the frame if a pass was issued, the office and the row. -/
def conversationDispatch (flags : Byte) (seq ack : Word)
    (payload : List Byte) (me : Identity) : Option (Word × Frame) × Office × Conn :=
  if tcpMaxPayload < payload.length then (none, o, k)
  else if !flagMakeSense flags then (none, o, k)
  else if !k.box.inUse then (none, o, k)
  else match atlasLookup o.atlas k.box.remoteIp with
    | none => (none, o, k)
    | some nextHop =>
      let known := rolodexLookup o.rolodex nextHop
      let window := waystationReceiveWindow k
      let frame := tcpFrame (known.getD {}) me.mac me.ip k.box.remoteIp
        ⟨k.box.localPort, k.box.remotePort, seq, ack, flags, BitVec.ofNat 16 window.1, payload⟩
      if known.isNone then (none, (foyerQueue o nextHop me.mac frame).2, window.2)
      else
        let pass := bailiffRequestPass o frame
        (pass.1.map fun passId => (passId, frame), pass.2, window.2)

/-- Dispatch a segment and, if a pass was issued, track it for `seqLen` sequence numbers. -/
def dispatchTracked (flags : Byte) (seq ack : Word)
    (payload : List Byte) (seqLen : ℕ) (me : Identity) :
    Option (Word × Frame) × Office × Conn :=
  match conversationDispatch o k flags seq ack payload me with
  | (none, o, k) => (none, o, k)
  | (some sent, o, k) =>
    (some sent, o, k.setScheduler (schedulerTrack o.ticks k.scheduler seq seqLen sent.2).2)

def conversationDispatchSynAck (me : Identity) : Option (Word × Frame) × Office × Conn :=
  dispatchTracked o k (flagSyn ||| flagAck) k.rapport.ourIsn k.rapport.expectedSeq [] 1 me

def conversationDispatchSyn (ourIsn : Word) (me : Identity) :
    Option (Word × Frame) × Office × Conn :=
  dispatchTracked o k flagSyn ourIsn 0 [] 1 me

def conversationDispatchData (data : List Byte) (me : Identity) :
    Option (Word × Frame) × Office × Conn :=
  if data.length = 0 ∨ tcpMaxPayload < data.length then (none, o, k)
  else if k.rapport.status ≠ .established then (none, o, k)
  else if schedulerFreeSlots k.scheduler = 0 then (none, o, k)
  else if !rapportSendAllowed k data.length then (none, o, k)
  else match dispatchTracked o k flagAck k.rapport.sendSeq k.rapport.expectedSeq data
      data.length me with
    | (none, o, k) => (none, o, k)
    | (some sent, o, k) => (some sent, o, rapportAdvanceSendSeq k data.length)

def conversationDispatchFin (me : Identity) : Option (Word × Frame) × Office × Conn :=
  if k.rapport.status ≠ .established ∧ k.rapport.status ≠ .closeWait then (none, o, k)
  else if 0 < schedulerBytesInFlight k.scheduler then (none, o, k)
  else match dispatchTracked o k (flagFin ||| flagAck) k.rapport.sendSeq
      k.rapport.expectedSeq [] 1 me with
    | (none, o, k') => (none, o, k')
    | (some sent, o, k') =>
      (some sent, o, rapportInitiateClose (rapportAdvanceSendSeq k' 1) k.rapport.sendSeq)

end

/-- Present the pass of a dispatched segment; whether the frame went out. -/
def presentDispatched : Option (Word × Frame) × Office × Conn → Bool × Office × Conn
  | (none, o, k) => (false, o, k)
  | (some (passId, frame), o, k) =>
    let r := bailiffPresentPass o passId frame
    (r.1, r.2, k)

def switchboardSend (k : Conn) (data : List Byte) (me : Identity) : Bool × Office × Conn :=
  presentDispatched (conversationDispatchData o k data me)

def switchboardClose (k : Conn) (me : Identity) : Bool × Office × Conn :=
  presentDispatched (conversationDispatchFin o k me)

end

def switchboardRecv (maxLen : ℕ) : List Byte × Conn :=
  if k.acceptedGeneration ≠ k.box.generation then ([], k) else k.read maxLen

def PacketsState.backOff (p : PacketsState) (i : Fin schedWindow) : PacketsState :=
  { p with
    seg := fun j => { p.seg j with
      retransmitted := true
      startTimer := if j = i then now else (p.seg j).startTimer }
    rto := if schedMaxRto < p.rto * 2 then schedMaxRto else p.rto * 2
    retryTrack := p.retryTrack + 1 }

def schedulerTimer : Option Frame × Conn :=
  let p := k.scheduler
  if p.state ≠ .retry then (none, k)
  else match p.oldest with
    | none => (none, k.setScheduler { p with state := .idle })
    | some i =>
      if now - (p.seg i).startTimer < p.rto then (none, k)
      else if retryLimit ≤ p.retryTrack then
        (none, rapportOnRst (k.setScheduler { p.clearWindow with state := .failure }))
      else (some (p.seg i).frame, k.setScheduler (p.backOff now i))

end

/-- Everything that is ever done to the row of a slot. -/
inductive ConnEvent
  | syn (u : Tuple) (peerIsn ourIsn : Word) (o : Office) (me : Identity)
  /-- The acknowledgement of a cookie claims the slot and is then received. -/
  | cookie (u : Tuple) (now : Word) (g : Segment)
  | connect (u : Tuple) (ourIsn : Word) (o : Office) (me : Identity)
  | listen (port : Port) (protocol : Byte)
  | answer (g : Segment)
  | segment (now : Word) (g : Segment)
  | accept
  | send (o : Office) (data : List Byte) (me : Identity)
  | close (o : Office) (me : Identity)
  | recv (maxLen : ℕ)
  | expire
  | timer (now : Word)

def Conn.step (k : Conn) : ConnEvent → Conn
  | .syn u peerIsn ourIsn o me =>
    (conversationDispatchSynAck o (rapportOnSyn (k.claim u) peerIsn ourIsn) me).2.2
  | .cookie u now g =>
    (conversationReceive now
      (rapportOnAck now (rapportOnSyn (k.claim u) (g.seq - 1) (g.ack - 1)) g.ack) g).2
  | .connect u ourIsn o me =>
    (conversationDispatchSyn o (rapportInitiateConnect (k.claim u) ourIsn) ourIsn me).2.2
  | .listen port protocol => k.claim (.listener port protocol)
  | .answer g => conversationAnswer k g
  | .segment now g => (conversationReceive now k g).2
  | .accept => { k with acceptedGeneration := k.box.generation }
  | .send o data me => (switchboardSend o k data me).2.2
  | .close o me => (switchboardClose o k me).2.2
  | .recv maxLen => (switchboardRecv k maxLen).2
  | .expire => rapportExpire k
  | .timer now => (schedulerTimer now k).2

/-- What the callers have checked about the slot when they do something to it. -/
def ConnEvent.Legal (k : Conn) : ConnEvent → Prop
  | .syn u _ _ _ _ => k.box.inUse = false ∧ u.protocol = 6
  | .cookie u _ g =>
    k.box.inUse = false ∧ u.protocol = 6 ∧ g.isAck = true ∧ g.data.length < 65536
  | .connect u _ _ _ => k.box.inUse = false ∧ u.protocol = 6
  | .listen _ _ => k.box.inUse = false
  | .answer _ => k.box.inUse = true ∧ k.rapport.status = .synSent
  | .segment _ g =>
    k.box.inUse = true ∧ k.rapport.status ≠ .synSent ∧ g.data.length < 65536
  | .accept => k.box.inUse = true ∧ k.rapport.status = .established
  | .expire => k.rapport.status = .timeWait
  | .send _ _ _ | .close _ _ | .recv _ | .timer _ => True

end Aevros
