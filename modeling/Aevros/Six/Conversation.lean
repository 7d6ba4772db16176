import Aevros.Office.Transmit
import Aevros.Six.Connection

/-! # Conversation6: segments in and out of one IPv6 connection

What `conversation6_handle` does to a connection. A FIN is taken before the acknowledgement and the
payload of its segment, which are then not looked at.
-/

namespace Aevros

def Conn6.ack (now : Word) (k : Conn6) (acked : Word) : Option Frame × Conn6 :=
  let r := scheduler6Ack now k.scheduler acked
  (r.1, k.setScheduler r.2)

def Conn6.deliver (k : Conn6) (data : List Byte) : Conn6 :=
  if data.length = 0 then k
  else
    let r := k.deposit data
    if r.1 then waystation6Drain (rapport6AdvanceSeq r.2 data.length) else r.2

def Conn6.outOfOrder (k : Conn6) (g : Segment) : Conn6 :=
  if rapport6SeqIsStaleRetransmit k g.seq g.data.length then k
  else if 0 < g.data.length then (waystation6Hold k g.seq g.data).2
  else k

/-- The acknowledgement that an in-order segment without FIN carries. -/
def Conn6.takeAck (now : Word) (k : Conn6) (g : Segment) : Option Frame × Conn6 :=
  if g.isAck then (rapport6OnAck now k g.ack).ack now g.ack else (none, k)

def conversation6Receive (now : Word) (k : Conn6) (g : Segment) : Option Frame × Conn6 :=
  let k := rapport6SetPeerWindow k g.window
  if g.seq ≠ k.rapport.expectedSeq then (none, k.outOfOrder g)
  else if g.rst then (none, rapport6OnRst k)
  else if g.fin then (none, rapport6OnFin now k)
  else
    let r := k.takeAck now g
    (r.1, r.2.deliver g.data)

def tcp6MaxPayload : ℕ := 1440

def tcp6Sum (src dst : Ip6) (tcp : List Byte) : ℕ :=
  sumWords src.bytes + sumWords dst.bytes + tcp.length + 6 + sumWords tcp

def tcp6Frame (destMac ourMac : Mac) (ourIp peerIp : Ip6) (g : Segment) : Frame :=
  let csum := checksumField (tcp6Sum ourIp peerIp (tcpHeader g 0 ++ g.data))
  destMac.bytes ++ ourMac.bytes ++ [0x86, 0xDD] ++
    ([0x60, 0, 0, 0] ++ bytes16 (BitVec.ofNat 16 (tcpMinHeader + g.data.length)) ++ [6, 64] ++
      ourIp.bytes ++ peerIp.bytes) ++
    (tcpHeader g csum ++ g.data)

structure Identity6 where
  mac : Mac := {}
  ip : Ip6 := fun _ => 0

def conversation6Dispatch (o : Office) (r : Rolodex6) (k : Conn6) (flags : Byte) (seq ack : Word)
    (payload : List Byte) (me : Identity6) : Option (Word × Frame) × Office × Conn6 :=
  if tcp6MaxPayload < payload.length then (none, o, k)
  else if !flagMakeSense flags then (none, o, k)
  else if !k.box.inUse then (none, o, k)
  else match rolodex6Lookup r k.box.remoteIp with
    | none => (none, o, k)
    | some destMac =>
      let window := waystation6ReceiveWindow k
      let frame := tcp6Frame destMac me.mac me.ip k.box.remoteIp
        ⟨k.box.localPort, k.box.remotePort, seq, ack, flags, BitVec.ofNat 16 window.1, payload⟩
      let pass := bailiffRequestPass o frame
      (pass.1.map fun passId => (passId, frame), pass.2, window.2)

def conversation6DispatchSynAck (o : Office) (r : Rolodex6) (k : Conn6) (me : Identity6) :
    Option (Word × Frame) × Office × Conn6 :=
  match conversation6Dispatch o r k (flagSyn ||| flagAck) k.rapport.ourIsn
      k.rapport.expectedSeq [] me with
  | (none, o, k) => (none, o, k)
  | (some sent, o, k') =>
    (some sent, o, k'.setScheduler (scheduler6Track o.ticks k'.scheduler k.rapport.ourIsn sent.2).2)

def Conn6.opened (k : Conn6) (u : Tuple6) (peerIsn ourIsn : Word) (o : Office) (r : Rolodex6)
    (me : Identity6) : Conn6 :=
  (conversation6DispatchSynAck o r (rapport6OnSyn (k.claim u) peerIsn ourIsn) me).2.2

end Aevros
