import Aevros.Tcp.Inbox
import Aevros.Tcp.Scheduler

/-! # One connection slot: WayStation and Rapport

The modules of the stack keep parallel arrays indexed by LockBox slot. `Conn` is the row of one
slot, and every function works on the row it is called with.
-/

namespace Aevros

abbrev waystationMaxPending : ℕ := 4

def waystationMaxSegment : ℕ := 1460

structure HeldSegment where
  seq : Word := 0
  data : List Byte := []
  inUse : Bool := false
  deriving DecidableEq

structure WayStation where
  slots : Fin waystationMaxPending → HeldSegment := fun _ => {}
  seenGeneration : Word := 0

def WayStation.resetIfStale (gen : Word) (w : WayStation) : WayStation :=
  if w.seenGeneration ≠ gen then
    ⟨fun i => { w.slots i with inUse := false }, gen⟩
  else w

@[simp] theorem WayStation.resetIfStale_idem (gen : Word) (w : WayStation) :
    (w.resetIfStale gen).resetIfStale gen = w.resetIfStale gen := by
  unfold WayStation.resetIfStale
  split_ifs <;> simp_all

theorem WayStation.resetIfStale_of_seen {gen : Word} {w : WayStation}
    (h : w.seenGeneration = gen) : w.resetIfStale gen = w := by
  simp [WayStation.resetIfStale, h]

@[simp] theorem WayStation.resetIfStale_seen (gen : Word) (w : WayStation) :
    (w.resetIfStale gen).seenGeneration = gen := by
  unfold WayStation.resetIfStale
  split_ifs <;> simp_all

/-- The state machine and the sequence numbers of a connection. -/
structure Rapport where
  status : ConversationState := .closed
  expectedSeq : Word := 0
  ourIsn : Word := 0
  ourFinSeq : Word := 0
  timeWaitStarted : Word := 0
  peerWindow : Port := 0
  sendSeq : Word := 0
  deriving DecidableEq

structure Conn where
  box : LockboxEntry := {}
  inbox : Inbox := {}
  waystation : WayStation := {}
  rapport : Rapport := {}
  scheduler : PacketsState := {}
  acceptedGeneration : Word := 0

namespace Conn

variable (k : Conn)

def setStatus (st : ConversationState) : Conn :=
  { k with rapport := { k.rapport with status := st } }

def setScheduler (p : PacketsState) : Conn := { k with scheduler := p }

def claim (u : Tuple) : Conn := { k with box := k.box.claim u }

def release : Conn := { k with box := lockboxRelease k.box }

def deposit (payload : List Byte) : Bool × Conn :=
  let r := inboxDeposit k.box k.inbox payload
  (r.1, { k with box := r.2.1, inbox := r.2.2 })

def read (maxLen : ℕ) : List Byte × Conn :=
  let r := inboxRead k.box k.inbox maxLen
  (r.1, { k with box := r.2.1, inbox := r.2.2 })

def resetWaystation : Conn :=
  { k with waystation := k.waystation.resetIfStale k.box.generation }

end Conn

def convTimeWaitTicks : Word := 400

variable (k : Conn)

def rapportOnSyn (peerIsn ourIsn : Word) : Conn :=
  { k with rapport := { k.rapport with
      status := .synReceived
      expectedSeq := peerIsn + 1
      ourIsn := ourIsn
      sendSeq := ourIsn + 1 } }

def rapportInitiateClose (finSeq : Word) : Conn :=
  let k := { k with rapport := { k.rapport with ourFinSeq := finSeq } }
  match k.rapport.status with
  | .established => k.setStatus .finWait1
  | .closeWait => k.setStatus .lastAck
  | _ => k

def enterTimeWait (now : Word) (k : Conn) : Conn :=
  { k with rapport := { k.rapport with status := .timeWait, timeWaitStarted := now } }

/-- Drop the connection: the window is cancelled and the slot released. -/
def letGo : Conn :=
  ((k.setStatus .closed).setScheduler (schedulerCancel k.scheduler)).release

def rapportOnAck (now : Word) (k : Conn) (ackNum : Word) : Conn :=
  match k.rapport.status with
  | .synReceived => if ackNum ≠ k.rapport.ourIsn + 1 then k else k.setStatus .established
  | .finWait1 => if k.rapport.ourFinSeq + 1 ≤ ackNum then k.setStatus .finWait2 else k
  | .closing => if k.rapport.ourFinSeq + 1 ≤ ackNum then enterTimeWait now k else k
  | .lastAck => if k.rapport.ourFinSeq + 1 ≤ ackNum then letGo k else k
  | _ => k

def rapportAdvanceSeq (amount : ℕ) : Conn :=
  { k with rapport := { k.rapport with
      expectedSeq := k.rapport.expectedSeq + BitVec.ofNat 32 amount } }

def rapportOnFin (now : Word) (k : Conn) : Conn :=
  match k.rapport.status with
  | .established => (rapportAdvanceSeq k 1).setStatus .closeWait
  | .finWait1 => (rapportAdvanceSeq k 1).setStatus .closing
  | .finWait2 => enterTimeWait now (rapportAdvanceSeq k 1)
  | _ => k

def rapportOnRst : Conn := if k.rapport.status = .closed then k else letGo k

/-- Whether `rapport_tick` lets go of the slot. -/
def timeWaitExpired (now : Word) (k : Conn) : Bool :=
  k.rapport.status = .timeWait && !(now - k.rapport.timeWaitStarted < convTimeWaitTicks)

def rapportExpire : Conn := (k.setStatus .closed).release

def rapportInitiateConnect (ourIsn : Word) : Conn :=
  { k with rapport := { k.rapport with status := .synSent, ourIsn := ourIsn } }

def rapportOnSynAck (peerIsn ackNum : Word) : Bool × Conn :=
  if k.rapport.status ≠ .synSent then (false, k)
  else if ackNum ≠ k.rapport.ourIsn + 1 then (false, k)
  else (true, { k with rapport := { k.rapport with
    expectedSeq := peerIsn + 1
    status := .established
    sendSeq := k.rapport.ourIsn + 1 } })

def rapportSendAllowed (length : ℕ) : Bool :=
  schedulerBytesInFlight k.scheduler + length ≤ k.rapport.peerWindow.toNat

/-- `seq < expected_seq && seq + data_len <= expected_seq`, on unsigned numbers. -/
def rapportSeqIsStaleRetransmit (seq : Word) (dataLen : ℕ) : Bool :=
  seq < k.rapport.expectedSeq && seq + BitVec.ofNat 32 dataLen ≤ k.rapport.expectedSeq

def rapportAdvanceSendSeq (amount : ℕ) : Conn :=
  { k with rapport := { k.rapport with sendSeq := k.rapport.sendSeq + BitVec.ofNat 32 amount } }

def rapportSetPeerWindow (window : Port) : Conn :=
  { k with rapport := { k.rapport with peerWindow := window } }

def waystationHold (seq : Word) (payload : List Byte) : Bool × Conn :=
  if payload.length = 0 ∨ waystationMaxSegment < payload.length then (false, k)
  else
    let k := k.resetWaystation
    let slots := k.waystation.slots
    if (Fin.find? fun i => (slots i).inUse && (slots i).seq = seq).isSome then (true, k)
    else match Fin.find? fun i => !(slots i).inUse with
      | none => (false, k)
      | some i => (true, { k with waystation := { k.waystation with
          slots := Function.update slots i ⟨seq, payload, true⟩ } })

/-- The held segment that `waystation_drain` delivers next. -/
def Conn.nextHeld : Option (Fin waystationMaxPending) :=
  Fin.find? fun i => (k.waystation.slots i).inUse &&
    (k.waystation.slots i).seq = k.rapport.expectedSeq

/-- The end of a round of `waystation_drain`: the segment is delivered and its place freed. -/
def Conn.dropHeld (i : Fin waystationMaxPending) : Conn :=
  { k with waystation := { k.waystation with
      slots := Function.update k.waystation.slots i { k.waystation.slots i with inUse := false } } }

def drainRounds : ℕ → Conn → Conn
  | 0, k => k
  | n + 1, k =>
    match k.nextHeld with
    | none => k
    | some i =>
      let held := (k.waystation.slots i).data
      let r := k.deposit held
      if !r.1 then r.2
      else drainRounds n ((rapportAdvanceSeq r.2 held.length).dropHeld i)

/-- Every round frees one of the four places, so the fifth round at the latest ends the loop. -/
def waystationDrain : Conn := drainRounds (waystationMaxPending + 1) k.resetWaystation

/-- The window advertised to the peer: the free part of the ring less what is held. -/
def waystationReceiveWindow : ℕ × Conn :=
  let k := k.resetWaystation
  let available := inboxAvailable k.box k.inbox
  let freeSpace := lockboxMaxBuffered - available.1
  let heldBytes := ∑ i,
    if (k.waystation.slots i).inUse then (k.waystation.slots i).data.length else 0
  (if freeSpace ≤ heldBytes then 0 else min 65535 (freeSpace - heldBytes),
    { k with inbox := available.2 })

end Aevros
