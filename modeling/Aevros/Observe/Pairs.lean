import Aevros.Observe.Watch

/-! # NetTrace: requests and responses

An event of a snapshot that answers an earlier one is its response and claims it, unless that is a
response itself or claimed already.
-/

namespace Aevros

abbrev nettraceMaxEvents : ℕ := netwatchMaxEvents
def nettraceTimeoutTicks : BitVec 64 := 500

inductive NettraceStatus
  | none | pending | answered | timedOut
  deriving DecidableEq

inductive NettraceRelation
  | none | previous | related | response
  deriving DecidableEq

structure NettraceEvent where
  eventId : Word := 0
  previousId : Word := 0
  relatedId : Word := 0
  protocol : NetwatchProtocol := .unknown
  direction : NetwatchDirection := .rx
  length : Word := 0
  srcIp : Word := 0
  dstIp : Word := 0
  srcPort : Port := 0
  dstPort : Port := 0
  relation : NettraceRelation := .none
  valid : Bool := false
  tick : BitVec 64 := 0
  status : NettraceStatus := .none
  deriving DecidableEq

structure NetTrace where
  events : Fin nettraceMaxEvents → NettraceEvent
  claimed : Fin nettraceMaxEvents → Bool
  eventCount : ℕ

def nettraceClear : NetTrace := ⟨fun _ => {}, fun _ => false, 0⟩

def isReverseMatch (a b : NetwatchEvent) : Bool :=
  a.protocol = b.protocol && a.direction ≠ b.direction && a.srcIp = b.dstIp &&
    a.dstIp = b.srcIp && a.srcPort = b.dstPort && a.dstPort = b.srcPort

namespace NetTrace

variable (snap : NetwatchSnapshot)

section

variable (i : Fin nettraceMaxEvents)

def previousId : Word :=
  if 0 < i.val then (snap.events ⟨i - 1, (Nat.sub_le _ _).trans_lt i.isLt⟩).id else 0

def entry : NettraceEvent :=
  let source := snap.events i
  { eventId := source.id
    previousId := previousId snap i
    relatedId := 0
    protocol := source.protocol
    direction := source.direction
    length := source.length
    srcIp := source.srcIp
    dstIp := source.dstIp
    srcPort := source.srcPort
    dstPort := source.dstPort
    relation := .none
    valid := true
    tick := source.tick
    status := .none }

def enter (t : NetTrace) : NetTrace :=
  { t with events := Function.update t.events i (entry snap i) }

def openRequest (t : NetTrace) : Option (Fin nettraceMaxEvents) :=
  Fin.find? fun k => k < i && !(t.claimed k || (t.events k).relation = .response) &&
    isReverseMatch (snap.events i) (snap.events k)

end

def claim (i k : Fin nettraceMaxEvents) (t : NetTrace) : NetTrace :=
  { t with
    events := Function.update t.events i
      { t.events i with relatedId := (snap.events k).id, relation := .response }
    claimed := Function.update t.claimed k true }

def triggered (tick : Word) (i k : Fin nettraceMaxEvents) : Happening where
  source := ⟨.network, (snap.events k).id⟩
  target := ⟨.network, (snap.events i).id⟩
  relation := .triggered
  reason := .response
  tick := tick

def round (ticks : Fin nettraceMaxEvents → Word) (i : Fin nettraceMaxEvents)
    (s : NetTrace × Provenance) : NetTrace × Provenance :=
  let t := s.1.enter snap i
  match openRequest snap i t with
  | some k => (t.claim snap i k, (provenanceRecordOnce s.2 (triggered snap (ticks i) i k)).2)
  | none => (t, s.2)

def scan (ticks : Fin nettraceMaxEvents → Word) :
    List (Fin nettraceMaxEvents) → NetTrace × Provenance → NetTrace × Provenance
  | [], s => s
  | i :: is, s =>
    if (snap.events i).valid then scan ticks is (round snap ticks i s)
    else ({ s.1 with eventCount := i }, s.2)

end NetTrace

def NettraceEvent.statusAt (now : BitVec 64) (claimed : Bool) (e : NettraceEvent) :
    NettraceStatus :=
  if claimed then .answered
  else if e.dstIp = 0xFFFFFFFF ∨ e.dstIp = netwatchGroupDst ∨ e.dstIp >>> 28 = 0xE then .none
  else if e.tick < now ∧ nettraceTimeoutTicks < now - e.tick then .timedOut
  else .pending

def NetTrace.settle (now : BitVec 64) (t : NetTrace) : NetTrace :=
  { t with events := fun i =>
      if i < t.eventCount ∧ (t.events i).direction = .tx then
        { t.events i with status := (t.events i).statusAt now (t.claimed i) }
      else t.events i }

/-- `nettrace_rebuild_at` for a snapshot, and the provenance ring after it. -/
def nettraceRebuildAt (snap : NetwatchSnapshot) (now : BitVec 64)
    (ticks : Fin nettraceMaxEvents → Word) (p : Provenance) : NetTrace × Provenance :=
  let count := min snap.eventCount nettraceMaxEvents
  let s := NetTrace.scan snap ticks ((List.finRange nettraceMaxEvents).take count)
    ({ nettraceClear with eventCount := count }, p)
  (s.1.settle now, s.2)

def nettraceFindEvent (t : NetTrace) (eventId : Word) : Option (Fin nettraceMaxEvents) :=
  Fin.find? fun i => i.val < t.eventCount && (t.events i).valid && (t.events i).eventId = eventId

def nettraceFindRelated (t : NetTrace) (eventId : Word) : Option (Fin nettraceMaxEvents) :=
  match nettraceFindEvent t eventId with
  | none => none
  | some index =>
    let relatedId := (t.events index).relatedId
    if relatedId ≠ 0 then nettraceFindEvent t relatedId
    else Fin.find? fun i => i.val < t.eventCount && (t.events i).valid &&
      (t.events i).relatedId = eventId

end Aevros
