import Aevros.Provenance.Store

/-! # NetWatch: the events of the network

The last 128 packets that were seen, oldest first, each under its own number, and
counters for all of them. Every event is also recorded in the provenance ring.
-/

namespace Aevros

abbrev netwatchMaxEvents : ℕ := 128

def netwatchGroupDst : Word := 0xFFFFFFFE

inductive NetwatchProtocol
  | unknown | ethernet | arp | ipv4 | ipv6 | icmp | udp | tcp
  deriving DecidableEq

inductive NetwatchDirection
  | rx | tx
  deriving DecidableEq

structure NetwatchEvent where
  id : Word
  protocol : NetwatchProtocol
  direction : NetwatchDirection
  length : Word
  srcIp : Word
  dstIp : Word
  srcPort : Port
  dstPort : Port
  valid : Bool
  tick : BitVec 64
  deriving DecidableEq

structure NetwatchStats where
  rxPackets : Word := 0
  txPackets : Word := 0
  rxBytes : Word := 0
  txBytes : Word := 0
  arpPackets : Word := 0
  ipv4Packets : Word := 0
  ipv6Packets : Word := 0
  icmpPackets : Word := 0
  udpPackets : Word := 0
  tcpPackets : Word := 0
  linkUp : Bool := false

structure NetWatch where
  stats : NetwatchStats
  events : List NetwatchEvent
  nextEventId : Word
  length_le : events.length ≤ netwatchMaxEvents

structure Sighting where
  protocol : NetwatchProtocol
  length : Word
  srcIp : Word
  dstIp : Word
  srcPort : Port
  dstPort : Port
  deriving DecidableEq

def netwatchInit : NetWatch where
  stats := {}
  events := []
  nextEventId := 1
  length_le := Nat.zero_le _

namespace NetwatchStats

def countDirection (s : NetwatchStats) (direction : NetwatchDirection) (length : Word) :
    NetwatchStats :=
  match direction with
  | .rx => { s with rxPackets := s.rxPackets + 1, rxBytes := s.rxBytes + length }
  | .tx => { s with txPackets := s.txPackets + 1, txBytes := s.txBytes + length }

def countProtocol (s : NetwatchStats) : NetwatchProtocol → NetwatchStats
  | .arp => { s with arpPackets := s.arpPackets + 1 }
  | .ipv4 => { s with ipv4Packets := s.ipv4Packets + 1 }
  | .ipv6 => { s with ipv6Packets := s.ipv6Packets + 1 }
  | .icmp => { s with icmpPackets := s.icmpPackets + 1 }
  | .udp => { s with udpPackets := s.udpPackets + 1 }
  | .tcp => { s with tcpPackets := s.tcpPackets + 1 }
  | .unknown | .ethernet => s

end NetwatchStats

def netwatchNicDriverId : Word := 1

namespace NetWatch

def event (now : Word) (direction : NetwatchDirection) (s : Sighting) (id : Word) :
    NetwatchEvent where
  id := id
  protocol := s.protocol
  direction := direction
  length := s.length
  srcIp := s.srcIp
  dstIp := s.dstIp
  srcPort := s.srcPort
  dstPort := s.dstPort
  valid := true
  tick := now.setWidth 64

/-- The events that stay when one more is stored: the oldest gives way if there is no room. -/
def kept (w : NetWatch) : List NetwatchEvent :=
  if netwatchMaxEvents ≤ w.events.length then w.events.drop 1 else w.events

theorem length_kept_lt (w : NetWatch) : w.kept.length < netwatchMaxEvents := by
  have hle : w.events.length ≤ 128 := w.length_le
  unfold kept
  split_ifs with h
  · rw [List.length_drop]
    exact Nat.lt_of_le_of_lt (Nat.sub_le_sub_right hle 1) (by decide)
  · exact Nat.lt_of_not_le h

def origin (now : Word) (direction : NetwatchDirection) (id : Word) : Happening where
  source := ⟨.driver, netwatchNicDriverId⟩
  target := ⟨.network, id⟩
  relation := .created
  reason := match direction with
    | .rx => .delivery
    | .tx => .systemAction
  tick := now

def recordEvent (now : Word) (direction : NetwatchDirection) (s : Sighting) (w : NetWatch)
    (p : Provenance) : NetWatch × Provenance :=
  ({ w with
      events := w.kept ++ [event now direction s w.nextEventId]
      nextEventId := w.nextEventId + 1
      length_le := by
        rw [List.length_append]
        exact w.length_kept_lt },
    (provenanceRecord p (origin now direction w.nextEventId)).2)

end NetWatch

/-- The functions `netwatch_…_event`: count the packet by protocol and direction, and record it. -/
def netwatchEvent (now : Word) (direction : NetwatchDirection) (s : Sighting) (w : NetWatch)
    (p : Provenance) : NetWatch × Provenance :=
  let stats := (w.stats.countProtocol s.protocol).countDirection direction s.length
  NetWatch.recordEvent now direction s { w with stats := stats } p

def arpSighting (src dst : Word) : Sighting := ⟨.arp, 0, src, dst, 0, 0⟩

section

variable (length src dst : Word)

def ipv4Sighting : Sighting := ⟨.ipv4, length, src, dst, 0, 0⟩

def icmpSighting : Sighting := ⟨.icmp, length, src, dst, 0, 0⟩

variable (srcPort dstPort : Port)

def ipv6Sighting : Sighting :=
  ⟨.ipv6, length, src, dst, srcPort, dstPort⟩

def udpSighting : Sighting :=
  ⟨.udp, length, src, dst, srcPort, dstPort⟩

def tcpSighting : Sighting :=
  ⟨.tcp, length, src, dst, srcPort, dstPort⟩

end

structure NetwatchSnapshot where
  events : Fin netwatchMaxEvents → NetwatchEvent
  eventCount : ℕ

end Aevros
