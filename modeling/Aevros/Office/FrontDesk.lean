import Aevros.Wire.Segment
import Mathlib.Data.Fin.Basic

/-! # FrontDesk, the network driver

The RTL8139 back end keeps a ring of 16 frames and four transmit descriptors; the e1000 back end
keeps a ring of 16 descriptors that the card marks as done.
-/

namespace Aevros

open Function

def txFrameMax : ℕ := 1792
def txQueueLen : ℕ := 16

def tsdFinishedBits : Word := 0x4000E000
def tsdTok : Word := 0x8000

abbrev ringLen : ℕ := 16
def bufLen : ℕ := 2048

structure FrontDesk where
  mac : Mac := {}
  present : Bool := false
  backendE1000 : Bool := false
  txDrops : Word := 0
  /-- Slot `i < 16` holds the first `txq_len[i]` bytes of `txq[i]`. -/
  txq : ℕ → Frame := fun _ => []
  txqHead : ℕ := 0
  txqCount : ℕ := 0
  txBusy : Fin 4 → Option Frame := fun _ => none
  txNextDesc : Fin 4 := 0
  tsd : Fin 4 → Word := fun _ => 0
  txRing : Fin ringLen → Frame × Bool := fun _ => ([], false)
  txTail : Fin ringLen := 0
  txClean : Fin ringLen := 0
  txInflight : ℕ := 0

namespace FrontDesk

/-- A frame that was not sent goes before the head of the ring. -/
def requeue (f : FrontDesk) (frame : Frame) : FrontDesk :=
  let head := (f.txqHead + txQueueLen - 1) % txQueueLen
  { f with txqHead := head, txq := update f.txq head frame, txqCount := f.txqCount + 1 }

def enqueue (f : FrontDesk) (data : Frame) : FrontDesk :=
  let slot := (f.txqHead + f.txqCount) % txQueueLen
  { f with txq := update f.txq slot data, txqCount := f.txqCount + 1 }

def reap (f : FrontDesk) (d : Fin 4) : FrontDesk :=
  match f.txBusy d with
  | none => f
  | some frame =>
    if f.tsd d &&& tsdFinishedBits = 0 then f
    else
      let f := { f with txBusy := update f.txBusy d none }
      if f.tsd d &&& tsdTok ≠ 0 then f
      else if f.txqCount < txQueueLen then f.requeue frame
      else { f with txDrops := f.txDrops + 1 }

def freeDesc (f : FrontDesk) : Option (Fin 4) :=
  ((List.finRange 4).map (f.txNextDesc + ·)).find? fun d => (f.txBusy d).isNone

/-- A descriptor gets a frame, and the next search starts behind it. -/
def fill (f : FrontDesk) (frame : Frame) (d : Fin 4) : FrontDesk :=
  { f with
    txBusy := update f.txBusy d (some frame)
    tsd := update f.tsd d (BitVec.ofNat 32 frame.length)
    txNextDesc := d + 1 }

def handOver (f : FrontDesk) (d : Fin 4) : FrontDesk :=
  { f.fill (f.txq f.txqHead) d with
    txqHead := (f.txqHead + 1) % txQueueLen
    txqCount := f.txqCount - 1 }

/-- The second loop of `tx_pump`: a round for each frame in the ring, as long as one is free. -/
def load : ℕ → FrontDesk → FrontDesk
  | 0, f => f
  | n + 1, f => match f.freeDesc with
    | none => f
    | some d => load n (f.handOver d)

def txPump (f : FrontDesk) : FrontDesk :=
  let f := (List.finRange 4).foldl reap f
  load f.txqCount f

/-- `reclaim_tx`: release finished descriptors in ring order, `n` of them at most. -/
def reclaimTx : ℕ → FrontDesk → FrontDesk
  | 0, f => f
  | n + 1, f =>
    if 0 < f.txInflight && (f.txRing f.txClean).2 then
      reclaimTx n { f with
        txRing := update f.txRing f.txClean ((f.txRing f.txClean).1, false)
        txClean := f.txClean + 1
        txInflight := f.txInflight - 1 }
    else f

def e1000Send (f : FrontDesk) (data : Frame) : Bool × FrontDesk :=
  if data.length = 0 ∨ bufLen < data.length then (false, f)
  else
    let f := reclaimTx f.txInflight f
    if f.txInflight = ringLen then (false, { f with txDrops := f.txDrops + 1 })
    else (true, { f with
      txRing := update f.txRing f.txTail (data, false)
      txTail := f.txTail + 1
      txInflight := f.txInflight + 1 })

def idle (mac : Mac) : FrontDesk := { mac := mac, present := true }

end FrontDesk

/-- Whether the driver takes the frame, and its new state. -/
def frontdeskSend (f : FrontDesk) (data : Frame) : Bool × FrontDesk :=
  if f.backendE1000 then f.e1000Send data
  else if !f.present ∨ data.length = 0 ∨ txFrameMax < data.length then (false, f)
  else if f.txqCount = txQueueLen then (false, { f with txDrops := f.txDrops + 1 })
  else (true, (f.enqueue data).txPump)

end Aevros
