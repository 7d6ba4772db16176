import Aevros.Library.Reads
import Aevros.Library.Ring
import Aevros.Observe.Watch

/-! # The network observer

The first 80 bytes of every frame are queued, and decoded later into events of NetWatch. The
decoders are programs over the captured bytes.
-/

namespace Aevros

open Reads

def netobserveQueueSlots : ℕ := 64
def netobserveCaptureBytes : ℕ := 80
def netobserveDrainMax : ℕ := 16
def ethHeader : ℕ := 14
def ethertypeIpv4 : Port := 0x0800
def ethertypeArp : Port := 0x0806
def ethertypeIpv6 : Port := 0x86DD

inductive Verdict
  | recorded (s : Sighting)
  | malformed (reason : String)
  | unknown
  deriving DecidableEq

namespace Observe

def be16 (i : ℕ) : Reads Byte Port := do
  let a ← cell i
  let b ← cell (i + 1)
  return a ++ b

def beIpv4 (i : ℕ) : Reads Byte Word := do
  let a ← cell i
  let b ← cell (i + 1)
  let c ← cell (i + 2)
  let d ← cell (i + 3)
  return a ++ b ++ c ++ d

def readIp (i : ℕ) : Reads Byte Ip4 := do
  return ⟨← cell i, ← cell (i + 1), ← cell (i + 2), ← cell (i + 3)⟩

def hashFrom (i : ℕ) : ℕ → Word → Reads Byte Word
  | 0, h => return h
  | n + 1, h => do
    let b ← cell i
    hashFrom (i + 1) n ((h ^^^ b.setWidth 32) * 16777619)

def hashIpv6 (i : ℕ) : Reads Byte Word := hashFrom i 16 2166136261

/-- `x || y`, where `y` is not evaluated if `x` is true. -/
def orElse (x y : Reads Byte Bool) : Reads Byte Bool := do
  if ← x then return true else y

variable (length caplen : ℕ)

def observeArp : Reads Byte Verdict := do
  if length < ethHeader + 28 ∨ caplen < ethHeader + 28 then
    return .malformed "arp: frame shorter than an ARP packet"
  else
    let foreign ← orElse (return (← be16 14) ≠ 1) <| orElse (return (← be16 16) ≠ ethertypeIpv4) <|
      orElse (return (← cell 18) ≠ 6) (return (← cell 19) ≠ 4)
    if foreign then return .malformed "arp: not Ethernet/IPv4 ARP"
    else
      let src ← beIpv4 28
      let dst ← beIpv4 38
      return .recorded (arpSighting src dst)

def observeTransport (length caplen l4 l4Len : ℕ) (proto : Byte) (src dst : Word)
    (fragmentOffset : Port) : Reads Byte Verdict := do
  let total := BitVec.ofNat 32 length
  if proto = 6 ∨ proto = 17 then
    if fragmentOffset ≠ 0 then return .recorded (ipv4Sighting total src dst)
    else if l4Len < 4 ∨ caplen < l4 + 4 then
      return .malformed "ipv4: TCP/UDP header truncated"
    else
      let sport ← be16 l4
      let dport ← be16 (l4 + 2)
      if proto = 6 then return .recorded (tcpSighting total src dst sport dport)
      else return .recorded (udpSighting total src dst sport dport)
  else if proto = 1 then return .recorded (icmpSighting total src dst)
  else return .recorded (ipv4Sighting total src dst)

def observeIpv4 : Reads Byte Verdict := do
  if length < ethHeader + 20 ∨ caplen < ethHeader + 20 then
    return .malformed "ipv4: frame shorter than a minimal IPv4 header"
  else
    let first ← cell 14
    let ihl := (first &&& 0x0F).toNat * 4
    if first >>> 4 ≠ 4 then return .malformed "ipv4: version field is not 4"
    else if ihl < 20 then return .malformed "ipv4: header length field below 20 bytes"
    else if length < ethHeader + ihl ∨ caplen < ethHeader + ihl then
      return .malformed "ipv4: header length runs past the frame"
    else
      let total := (← be16 16).toNat
      if total < ihl ∨ length < ethHeader + total then
        return .malformed "ipv4: total length inconsistent with frame"
      else
        let proto ← cell 23
        let src ← beIpv4 26
        let dst ← beIpv4 30
        let fragmentOffset := (← be16 20) &&& 0x1FFF
        observeTransport length caplen (ethHeader + ihl) (total - ihl) proto src dst fragmentOffset

/-- The destination of an IPv6 packet; all multicast groups are one. -/
def destIpv6 : Reads Byte Word := do
  if (← cell 38) = 0xFF then return netwatchGroupDst else hashIpv6 38

def observeIpv6 : Reads Byte Verdict := do
  if length < ethHeader + 40 ∨ caplen < ethHeader + 40 then
    return .malformed "ipv6: frame shorter than an IPv6 header"
  else
    let first ← cell 14
    if first >>> 4 ≠ 6 then return .malformed "ipv6: version field is not 6"
    else
      let payload := (← be16 18).toNat
      if length < ethHeader + 40 + payload then
        return .malformed "ipv6: payload length runs past the frame"
      else
        let next ← cell 20
        let src ← hashIpv6 22
        let dst ← destIpv6
        if (next = 6 ∨ next = 17) ∧ 4 ≤ payload ∧ ethHeader + 40 + 4 ≤ caplen then
          let sport ← be16 (ethHeader + 40)
          let dport ← be16 (ethHeader + 42)
          return .recorded (ipv6Sighting (BitVec.ofNat 32 length) src dst sport dport)
        else return .recorded (ipv6Sighting (BitVec.ofNat 32 length) src dst 0 0)

def observe : Reads Byte Verdict := do
  if length < ethHeader ∨ caplen < ethHeader then
    return .malformed "ethernet: frame shorter than an Ethernet header"
  else
    let ethertype ← be16 12
    if ethertype = ethertypeArp then observeArp length caplen
    else if ethertype = ethertypeIpv4 then observeIpv4 length caplen
    else if ethertype = ethertypeIpv6 then observeIpv6 length caplen
    else return .unknown

end Observe

structure Capture where
  direction : NetwatchDirection
  length : ℕ
  caplen : ℕ
  data : Fin netobserveCaptureBytes → Byte

namespace Capture

def byte (c : Capture) (i : ℕ) : Byte :=
  if h : i < netobserveCaptureBytes then c.data ⟨i, h⟩ else 0

def fill (c : Capture) (direction : NetwatchDirection) (frame : Frame) : Capture :=
  let n := if frame.length < netobserveCaptureBytes then frame.length else netobserveCaptureBytes
  { direction := direction
    length := frame.length
    caplen := n
    data := fun i => if i < n then frame.getD i 0 else c.data i }

end Capture

structure NetobserveStats where
  captured : Word := 0
  dropped : Word := 0
  recorded : Word := 0
  malformed : Word := 0
  unknown : Word := 0
  lastMalformedReason : Option String := none

structure NetObserve where
  queue : ℕ → Capture
  head : ℕ
  tail : ℕ
  count : ℕ
  stats : NetobserveStats

def netobserveInit (o : NetObserve) : NetObserve :=
  { o with head := 0, tail := 0, count := 0, stats := {} }

/-- `netobserve_capture`; without a frame (a null pointer) nothing is done. -/
def netobserveCapture (direction : NetwatchDirection) (frame : Option Frame) (o : NetObserve) :
    NetObserve :=
  match frame with
  | none => o
  | some frame =>
    if frame.length = 0 then o
    else
      let stats := { o.stats with captured := o.stats.captured + 1 }
      if netobserveQueueSlots ≤ o.count then
        { o with stats := { stats with dropped := stats.dropped + 1 } }
      else
        { o with
          queue := Function.update o.queue o.head ((o.queue o.head).fill direction frame)
          head := (o.head + 1) % netobserveQueueSlots
          count := o.count + 1
          stats := stats }

structure Observation where
  observer : NetObserve
  watch : NetWatch
  ring : Provenance

namespace Observation

def conclude (now : Word) (direction : NetwatchDirection) (v : Verdict) (s : Observation) :
    Observation :=
  let stats := s.observer.stats
  match v with
  | .recorded x =>
    { observer := { s.observer with stats := { stats with recorded := stats.recorded + 1 } }
      watch := (netwatchEvent now direction x s.watch s.ring).1
      ring := (netwatchEvent now direction x s.watch s.ring).2 }
  | .malformed reason =>
    { s with observer.stats :=
        { stats with malformed := stats.malformed + 1, lastMalformedReason := some reason } }
  | .unknown => { s with observer.stats := { stats with unknown := stats.unknown + 1 } }

/-- One round of the loop of `netobserve_drain`, with interrupts off; none if nothing is queued. -/
def drainRound (now : Word) (s : Observation) : Option Observation :=
  if s.observer.count = 0 then none
  else
    let c := s.observer.queue s.observer.tail
    let s := s.conclude now c.direction ((Observe.observe c.length c.caplen).run c.byte)
    some { s with
      observer.tail := (s.observer.tail + 1) % netobserveQueueSlots
      observer.count := s.observer.count - 1 }

def drainLoop (ticks : ℕ → Word) : ℕ → ℕ → Observation → ℕ × Observation
  | 0, handled, s => (handled, s)
  | n + 1, handled, s =>
    match drainRound (ticks handled) s with
    | none => (handled, s)
    | some s' => drainLoop ticks n (handled + 1) s'

end Observation

/-- `netobserve_drain`: how many frames were handled, and the state after it. -/
def netobserveDrain (ticks : ℕ → Word) (s : Observation) : ℕ × Observation :=
  Observation.drainLoop ticks netobserveDrainMax 0 s

end Aevros
