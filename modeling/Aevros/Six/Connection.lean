import Aevros.Six.Tables
import Aevros.Tcp.Connection

/-! # One IPv6 connection slot

`Conn6` is the row of a slot of the IPv6 stack, with functions of its own. Its scheduler tracks one
segment, by the length of its frame.
-/

namespace Aevros

def sched6InitialRto : Word := 100
def sched6MinRto : Word := 20
def sched6MaxRto : Word := 1000
def sched6DupAckThreshold : ℕ := 3
def sched6MaxFrame : ℕ := 1600

/-- The tracked segment; `length` is the length of its frame. -/
structure Packets6State where
  seq : Word := 0
  length : ℕ := 0
  startTimer : Word := 0
  retryTrack : ℕ := 0
  state : PacketState := .idle
  frame : Frame := []
  srtt : Word := 0
  rttvar : Word := 0
  rto : Word := 0
  retransmitted : Bool := false
  lastAckSeen : Word := 0
  dupAckCount : ℕ := 0
  deriving DecidableEq

def Packets6State.addSample (e : Packets6State) (sample : Word) : Packets6State :=
  let diff := if e.srtt < sample then sample - e.srtt else e.srtt - sample
  let rttvar := if e.srtt = 0 then sample / 2 else e.rttvar - e.rttvar / 4 + diff / 4
  let srtt := if e.srtt = 0 then sample else e.srtt - e.srtt / 8 + sample / 8
  let rto := srtt + 4 * rttvar
  let rto := if rto < sched6MinRto then sched6MinRto else rto
  let rto := if sched6MaxRto < rto then sched6MaxRto else rto
  { e with srtt := srtt, rttvar := rttvar, rto := rto }

def scheduler6Track (now : Word) (e : Packets6State) (seq : Word) (frame : Frame) :
    Bool × Packets6State :=
  if frame.length = 0 ∨ sched6MaxFrame < frame.length then (false, e)
  else (true, { e with
    seq := seq
    length := frame.length
    frame := frame
    startTimer := now
    retryTrack := 0
    state := .retry
    retransmitted := false
    dupAckCount := 0
    rto := if e.rto = 0 then sched6InitialRto else e.rto })

def scheduler6Ack (now : Word) (e : Packets6State) (acked : Word) : Option Frame × Packets6State :=
  if e.state ≠ .retry then (none, e)
  else if e.seq + BitVec.ofNat 32 e.length ≤ acked then
    let e := if e.retransmitted then e else e.addSample (now - e.startTimer)
    (none, { e with state := .idle, retryTrack := 0, dupAckCount := 0, lastAckSeen := acked })
  else if acked = e.lastAckSeen then
    if sched6DupAckThreshold ≤ e.dupAckCount + 1 then (some e.frame, { e with dupAckCount := 0 })
    else (none, { e with dupAckCount := e.dupAckCount + 1 })
  else (none, { e with lastAckSeen := acked, dupAckCount := 0 })

def scheduler6Cancel (e : Packets6State) : Packets6State :=
  { e with state := .idle, retryTrack := 0, rto := 0, srtt := 0, rttvar := 0, dupAckCount := 0 }

def inbox6Deposit (e : Lockbox6Entry) (b : Inbox) (payload : List Byte) :
    Bool × Lockbox6Entry × Inbox :=
  let b := b.resetIfStale e.generation
  let r := lockbox6Deposit e payload.length
  if !r.1 then (false, r.2, b)
  else
    let w := Ring.write lockbox6MaxBuffered b.storage b.writePos payload
    (true, r.2, { b with
      storage := w.1, writePos := w.2, count := (b.count + payload.length) % 65536 })

def inbox6Read (e : Lockbox6Entry) (b : Inbox) (maxLen : ℕ) : List Byte × Lockbox6Entry × Inbox :=
  let b := b.resetIfStale e.generation
  let n := if maxLen < b.count then maxLen else b.count
  let r := Ring.read lockbox6MaxBuffered b.storage b.readPos n
  (r.1, if 0 < n then lockbox6Consume e n else e, { b with readPos := r.2, count := b.count - n })

def inbox6Available (e : Lockbox6Entry) (b : Inbox) : ℕ × Inbox :=
  ((b.resetIfStale e.generation).count, b.resetIfStale e.generation)

structure Conn6 where
  box : Lockbox6Entry := {}
  inbox : Inbox := {}
  waystation : WayStation := {}
  rapport : Rapport := {}
  scheduler : Packets6State := {}

namespace Conn6

variable (k : Conn6)

def setStatus (st : ConversationState) : Conn6 :=
  { k with rapport := { k.rapport with status := st } }

def setScheduler (e : Packets6State) : Conn6 := { k with scheduler := e }

def claim (u : Tuple6) : Conn6 := { k with box := k.box.claim u }

def release : Conn6 := { k with box := lockbox6Release k.box }

def deposit (payload : List Byte) : Bool × Conn6 :=
  let r := inbox6Deposit k.box k.inbox payload
  (r.1, { k with box := r.2.1, inbox := r.2.2 })

def read (maxLen : ℕ) : List Byte × Conn6 :=
  let r := inbox6Read k.box k.inbox maxLen
  (r.1, { k with box := r.2.1, inbox := r.2.2 })

def resetWaystation : Conn6 :=
  { k with waystation := k.waystation.resetIfStale k.box.generation }

end Conn6

variable (k : Conn6)

/-- Unlike `rapport_on_syn` this leaves `send_seq` as it was. -/
def rapport6OnSyn (peerIsn ourIsn : Word) : Conn6 :=
  { k with rapport := { k.rapport with
      status := .synReceived
      expectedSeq := peerIsn + 1
      ourIsn := ourIsn } }

def enterTimeWait6 (now : Word) (k : Conn6) : Conn6 :=
  { k with rapport := { k.rapport with status := .timeWait, timeWaitStarted := now } }

def letGo6 : Conn6 :=
  ((k.setStatus .closed).setScheduler (scheduler6Cancel k.scheduler)).release

/-- Unlike `rapport_on_ack` this takes any acknowledgement for that of our SYN. -/
def rapport6OnAck (now : Word) (k : Conn6) (ackNum : Word) : Conn6 :=
  match k.rapport.status with
  | .synReceived => k.setStatus .established
  | .finWait1 => if k.rapport.ourFinSeq + 1 ≤ ackNum then k.setStatus .finWait2 else k
  | .closing => if k.rapport.ourFinSeq + 1 ≤ ackNum then enterTimeWait6 now k else k
  | .lastAck => if k.rapport.ourFinSeq + 1 ≤ ackNum then letGo6 k else k
  | _ => k

def rapport6AdvanceSeq (amount : ℕ) : Conn6 :=
  { k with rapport := { k.rapport with
      expectedSeq := k.rapport.expectedSeq + BitVec.ofNat 32 amount } }

def rapport6OnFin (now : Word) (k : Conn6) : Conn6 :=
  match k.rapport.status with
  | .established => (rapport6AdvanceSeq k 1).setStatus .closeWait
  | .finWait1 => (rapport6AdvanceSeq k 1).setStatus .closing
  | .finWait2 => enterTimeWait6 now (rapport6AdvanceSeq k 1)
  | _ => k

def rapport6OnRst : Conn6 := if k.rapport.status = .closed then k else letGo6 k

def rapport6SeqIsStaleRetransmit (seq : Word) (dataLen : ℕ) : Bool :=
  seq < k.rapport.expectedSeq && seq + BitVec.ofNat 32 dataLen ≤ k.rapport.expectedSeq

def rapport6SetPeerWindow (window : Port) : Conn6 :=
  { k with rapport := { k.rapport with peerWindow := window } }

def waystation6MaxSegment : ℕ := 1440

def waystation6Hold (seq : Word) (payload : List Byte) : Bool × Conn6 :=
  if payload.length = 0 ∨ waystation6MaxSegment < payload.length then (false, k)
  else
    let k := k.resetWaystation
    let slots := k.waystation.slots
    if (Fin.find? fun i => (slots i).inUse && (slots i).seq = seq).isSome then (true, k)
    else match Fin.find? fun i => !(slots i).inUse with
      | none => (false, k)
      | some i => (true, { k with waystation := { k.waystation with
          slots := Function.update slots i ⟨seq, payload, true⟩ } })

def Conn6.nextHeld : Option (Fin waystationMaxPending) :=
  Fin.find? fun i => (k.waystation.slots i).inUse &&
    (k.waystation.slots i).seq = k.rapport.expectedSeq

def Conn6.dropHeld (i : Fin waystationMaxPending) : Conn6 :=
  { k with waystation := { k.waystation with
      slots := Function.update k.waystation.slots i { k.waystation.slots i with inUse := false } } }

def drainRounds6 : ℕ → Conn6 → Conn6
  | 0, k => k
  | n + 1, k =>
    match k.nextHeld with
    | none => k
    | some i =>
      let held := (k.waystation.slots i).data
      let r := k.deposit held
      if !r.1 then r.2
      else drainRounds6 n ((rapport6AdvanceSeq r.2 held.length).dropHeld i)

/-- Every round frees one of the four places, so the fifth round at the latest ends the loop. -/
def waystation6Drain : Conn6 :=
  drainRounds6 (waystationMaxPending + 1) k.resetWaystation

def waystation6ReceiveWindow : ℕ × Conn6 :=
  let k := k.resetWaystation
  let available := inbox6Available k.box k.inbox
  let freeSpace := lockbox6MaxBuffered - available.1
  let heldBytes :=
    ∑ i, if (k.waystation.slots i).inUse then (k.waystation.slots i).data.length else 0
  (if freeSpace ≤ heldBytes then 0 else min 65535 (freeSpace - heldBytes),
    { k with inbox := available.2 })

end Aevros
