import Aevros.Tcp.Connection

/-! # The receiving side of a connection

What a connection is for the peer's segments. A policy says in what two receivers may differ: the
handshake, the place of a FIN, and how long a held segment may be.
-/

namespace Aevros

structure Policy where
  /-- The handshake is completed by an acknowledgement of our SYN only. -/
  checksAck : Bool
  /-- A FIN is taken first, and the rest of its segment is dropped. -/
  finFirst : Bool
  /-- The longest segment that is held. -/
  maxHeld : ℕ

structure Receiver where
  inUse : Bool
  status : ConversationState
  expectedSeq : Word
  ourIsn : Word
  /-- The number of our FIN, while its acknowledgement is awaited. -/
  ourFin : Option Word
  unread : List Byte
  held : Fin waystationMaxPending → Option (Word × List Byte)

namespace Receiver

def Fits (r : Receiver) (data : List Byte) : Prop :=
  r.inUse = true ∧ r.unread.length + data.length ≤ lockboxMaxBuffered

instance (r : Receiver) (data : List Byte) : Decidable (r.Fits data) :=
  inferInstanceAs (Decidable (_ ∧ _))

section

variable (r : Receiver)

def append (data : List Byte) : Receiver :=
  { r with
    unread := r.unread ++ data
    expectedSeq := r.expectedSeq + BitVec.ofNat 32 data.length }

def nextHeld : Option (Fin waystationMaxPending) :=
  Fin.find? fun i => (r.held i).map Prod.fst = some r.expectedSeq

def drop (i : Fin waystationMaxPending) : Receiver :=
  { r with held := Function.update r.held i none }

def heldData (i : Fin waystationMaxPending) : List Byte :=
  ((r.held i).map Prod.snd).getD []

/-- At most `n` held segments that come next and fit are delivered. -/
def drain : ℕ → Receiver → Receiver
  | 0, r => r
  | n + 1, r =>
    match r.nextHeld with
    | none => r
    | some i =>
      if r.Fits (r.heldData i) then drain n ((r.append (r.heldData i)).drop i) else r

def deliver (data : List Byte) : Receiver :=
  if data.length = 0 then r
  else if r.Fits data then drain (waystationMaxPending + 1) (r.append data)
  else r

def hold (maxHeld : ℕ) (r : Receiver) (seq : Word) (data : List Byte) : Receiver :=
  if data.length = 0 ∨ maxHeld < data.length then r
  else if (Fin.find? fun i => (r.held i).map Prod.fst = some seq).isSome then r
  else match Fin.find? fun i => (r.held i).isNone with
    | none => r
    | some i => { r with held := Function.update r.held i (some (seq, data)) }

def stale (g : Segment) : Bool :=
  g.seq < r.expectedSeq && g.seq + BitVec.ofNat 32 g.data.length ≤ r.expectedSeq

def outOfOrder (maxHeld : ℕ) (r : Receiver) (g : Segment) : Receiver :=
  if r.stale g then r else r.hold maxHeld g.seq g.data

def close : Receiver :=
  { r with status := .closed, inUse := false, ourFin := none }

def acksFin (ack : Word) : Bool := r.ourFin.any fun fin => fin + 1 ≤ ack

def onAck (checksAck : Bool) (r : Receiver) (ack : Word) : Receiver :=
  match r.status with
  | .synReceived =>
    if checksAck = true ∧ ack ≠ r.ourIsn + 1 then r else { r with status := .established }
  | .finWait1 => if r.acksFin ack then { r with status := .finWait2, ourFin := none } else r
  | .closing => if r.acksFin ack then { r with status := .timeWait, ourFin := none } else r
  | .lastAck => if r.acksFin ack then r.close else r
  | _ => r

def onFin : Receiver :=
  match r.status with
  | .established => { r with status := .closeWait, expectedSeq := r.expectedSeq + 1 }
  | .finWait1 => { r with status := .closing, expectedSeq := r.expectedSeq + 1 }
  | .finWait2 => { r with status := .timeWait, expectedSeq := r.expectedSeq + 1 }
  | _ => r

def onRst : Receiver := if r.status = .closed then r else r.close

end

def takeAck (checksAck : Bool) (r : Receiver) (g : Segment) : Receiver :=
  if g.isAck then r.onAck checksAck g.ack else r

def receive (p : Policy) (r : Receiver) (g : Segment) : Receiver :=
  if g.seq ≠ r.expectedSeq then r.outOfOrder p.maxHeld g
  else if g.rst then r.onRst
  else if p.finFirst && g.fin then r.onFin
  else
    let r := (r.takeAck p.checksAck g).deliver g.data
    if g.fin then r.onFin else r

variable {r : Receiver} {data : List Byte}

@[simp] theorem status_drain (n : ℕ) (r : Receiver) : (drain n r).status = r.status := by
  induction n generalizing r with
  | zero => rfl
  | succ n ih =>
    unfold drain
    cases r.nextHeld with
    | none => rfl
    | some i =>
      dsimp only
      split_ifs
      · exact ih _
      · rfl

theorem length_unread_le_drain (n : ℕ) (r : Receiver) :
    r.unread.length ≤ (drain n r).unread.length := by
  induction n generalizing r with
  | zero => exact le_rfl
  | succ n ih =>
    unfold drain
    cases r.nextHeld with
    | none => exact le_rfl
    | some i =>
      dsimp only
      split_ifs
      · have happend : ((r.append (r.heldData i)).drop i).unread = r.unread ++ r.heldData i := rfl
        have hle := ih ((r.append (r.heldData i)).drop i)
        rw [happend, List.length_append] at hle
        omega
      · exact le_rfl

@[simp] theorem status_deliver (r : Receiver) (data : List Byte) :
    (r.deliver data).status = r.status := by
  unfold deliver
  split_ifs
  · rfl
  · exact status_drain _ _
  · rfl

theorem deliver_of_not_fits (h : data = [] ∨ ¬ r.Fits data) : r.deliver data = r := by
  unfold deliver
  rcases h with rfl | h
  · rfl
  · rw [if_neg h, ite_self]

theorem length_unread_lt_deliver (hdata : data ≠ []) (hfits : r.Fits data) :
    r.unread.length < (r.deliver data).unread.length := by
  have hle := length_unread_le_drain (waystationMaxPending + 1) (r.append data)
  have happend : (r.append data).unread = r.unread ++ data := rfl
  have hpos := List.length_pos_iff.mpr hdata
  rw [happend, List.length_append] at hle
  rw [deliver, if_neg hpos.ne', if_pos hfits]
  omega

@[simp] theorem status_outOfOrder (maxHeld : ℕ) (r : Receiver) (g : Segment) :
    (r.outOfOrder maxHeld g).status = r.status := by
  unfold outOfOrder hold
  split_ifs
  iterate 3 rfl
  cases Fin.find? fun i => (r.held i).isNone with
  | none => rfl
  | some i => rfl

theorem hold_congr {m n : ℕ} (h : m < data.length ↔ n < data.length) (r : Receiver) (seq : Word) :
    r.hold m seq data = r.hold n seq data := by
  simp only [hold, h]

@[simp] theorem unread_onFin (r : Receiver) : r.onFin.unread = r.unread := by
  unfold onFin
  split <;> rfl

theorem unread_onAck (checksAck : Bool) (r : Receiver) (ack : Word) :
    (r.onAck checksAck ack).unread = r.unread := by
  unfold onAck
  split
  all_goals first | rfl | (split_ifs <;> rfl)

@[simp] theorem unread_takeAck (checksAck : Bool) (r : Receiver) (g : Segment) :
    (r.takeAck checksAck g).unread = r.unread := by
  unfold takeAck
  split_ifs
  · exact unread_onAck _ _ _
  · rfl

end Receiver

end Aevros
