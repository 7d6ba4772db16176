import Aevros.Wire.Segment

/-! # The provenance ring

Records from one entity to another are kept in a ring of 256 places, and read by number, as a
snapshot from the oldest one on, or breadth first from an entity on, forwards or backwards.
-/

namespace Aevros

def provenanceMaxRecords : ℕ := 256

instance : NeZero provenanceMaxRecords := ⟨by decide⟩

inductive ProvenanceRelation
  | none | caused | affected | created | destroyed | owned | triggered | dependedOn | respondedTo
  deriving DecidableEq

inductive ProvenanceReason
  | none | interrupt | schedule | allocation | deallocation | creation | destruction | request
  | response | delivery | failure | dependency | userAction | systemAction
  deriving DecidableEq

inductive ProvenanceEntity
  | none | interrupt | driver | process | memory | network | file | device | operation
  deriving DecidableEq

structure EntityRef where
  type : ProvenanceEntity
  id : Word
  deriving DecidableEq

structure ProvenanceRecord where
  id : Word
  tick : Word
  source : EntityRef
  target : EntityRef
  relation : ProvenanceRelation
  reason : ProvenanceReason
  valid : Bool
  deriving DecidableEq

structure Provenance where
  records : Fin provenanceMaxRecords → ProvenanceRecord
  recordCount : ℕ
  nextId : Word
  dropped : Word
  recordCount_le : recordCount ≤ provenanceMaxRecords

def Provenance.zero : Provenance where
  records _ := ⟨0, 0, ⟨.none, 0⟩, ⟨.none, 0⟩, .none, .none, false⟩
  recordCount := 0
  nextId := 0
  dropped := 0
  recordCount_le := Nat.zero_le _

/-- What a caller of `provenance_record` hands over, with the tick that is read there. -/
structure Happening where
  source : EntityRef
  target : EntityRef
  relation : ProvenanceRelation
  reason : ProvenanceReason
  tick : Word

/-- `provenance_init`, which is also `provenance_clear`: the records stay, but none is valid. -/
def provenanceInit (p : Provenance) : Provenance where
  records i := { p.records i with valid := false }
  recordCount := 0
  nextId := 1
  dropped := 0
  recordCount_le := Nat.zero_le _

namespace Provenance

variable (p : Provenance)

def oldestSlot : ℕ :=
  if p.recordCount < provenanceMaxRecords then 0
  else (p.nextId - 1).toNat % provenanceMaxRecords

/-- The stored records from the oldest on, as the loops over the ring visit them. -/
def window : List ProvenanceRecord :=
  (List.range p.recordCount).map fun k => p.records (Fin.ofNat _ (p.oldestSlot + k))

end Provenance

def Happening.record (h : Happening) (id : Word) : ProvenanceRecord where
  id := id
  tick := h.tick
  source := h.source
  target := h.target
  relation := h.relation
  reason := h.reason
  valid := true

def Happening.inputValid (h : Happening) : Bool :=
  h.source.type ≠ .none && h.target.type ≠ .none && h.relation ≠ .none

variable (p : Provenance)

/-- `store_locked`: the number given out and the ring with the new record. -/
def storeLocked (h : Happening) : Word × Provenance :=
  (p.nextId,
    if hc : p.recordCount < provenanceMaxRecords then
      { records := Function.update p.records ⟨p.recordCount, hc⟩ (h.record p.nextId)
        recordCount := p.recordCount + 1
        nextId := p.nextId + 1
        dropped := p.dropped
        recordCount_le := hc }
    else
      { records :=
          Function.update p.records (Fin.ofNat _ (p.nextId - 1).toNat) (h.record p.nextId)
        recordCount := p.recordCount
        nextId := p.nextId + 1
        dropped := p.dropped + 1
        recordCount_le := p.recordCount_le })

def provenanceRecord (h : Happening) : Word × Provenance :=
  if h.inputValid then storeLocked p h else (0, p)

/-- A record with the same relation between the same entities is found again. -/
def provenanceRecordOnce (h : Happening) : Word × Provenance :=
  if h.inputValid then
    let known := Fin.find? fun i : Fin provenanceMaxRecords =>
      i.val < p.recordCount && (p.records i).valid && (p.records i).relation = h.relation &&
        (p.records i).source = h.source && (p.records i).target = h.target
    match known with
    | some i => if (p.records i).id = 0 then storeLocked p h else ((p.records i).id, p)
    | none => storeLocked p h
  else (0, p)

def provenanceGet (id : Word) : Option ProvenanceRecord :=
  if id = 0 then none
  else (Fin.find? fun i => (p.records i).valid && (p.records i).id = id).map p.records

structure ProvenanceSnapshot where
  records : List ProvenanceRecord
  recordCount : ℕ
  dropped : Word

/-- `provenance_get_snapshot`; of the array only the places that it fills. -/
def provenanceGetSnapshot : ProvenanceSnapshot where
  records := p.window
  recordCount := p.recordCount
  dropped := p.dropped

def ProvenanceRecord.near (r : ProvenanceRecord) (forward : Bool) : EntityRef :=
  if forward then r.source else r.target

def ProvenanceRecord.far (r : ProvenanceRecord) (forward : Bool) : EntityRef :=
  if forward then r.target else r.source

/-- The queue and the visited entities grow together, within the arrays of the source. -/
structure TraceState where
  queue : List EntityRef
  visited : List EntityRef
  results : List ProvenanceRecord
  queue_eq : queue = visited
  visited_le : visited.length ≤ provenanceMaxRecords + 1

namespace TraceState

def start (e : EntityRef) : TraceState where
  queue := [e]
  visited := [e]
  results := []
  queue_eq := rfl
  visited_le := Nat.le_add_left _ _

theorem queue_le (t : TraceState) : t.queue.length ≤ provenanceMaxRecords + 1 :=
  t.queue_eq ▸ t.visited_le

/-- Queue an entity that was not met before, as long as the arrays have room. -/
def enqueue (t : TraceState) (next : EntityRef) : TraceState :=
  if h : next ∉ t.visited ∧ t.visited.length < provenanceMaxRecords + 1 then
    { queue := t.queue ++ [next]
      visited := t.visited ++ [next]
      results := t.results
      queue_eq := by rw [t.queue_eq]
      visited_le := by simpa using h.2 }
  else t

def giveOut (t : TraceState) (r : ProvenanceRecord) : TraceState :=
  { t with results := t.results ++ [r] }

def follow (forward : Bool) (maxResults : ℕ) (current : EntityRef) (t : TraceState)
    (r : ProvenanceRecord) : TraceState :=
  if t.results.length < maxResults ∧ r.valid = true ∧ r.near forward = current then
    (t.giveOut r).enqueue (r.far forward)
  else t

def visit (copy : List ProvenanceRecord) (forward : Bool) (maxResults : ℕ) (t : TraceState)
    (current : EntityRef) : TraceState :=
  copy.foldl (follow forward maxResults current) t

end TraceState

def traceLoop (copy : List ProvenanceRecord) (forward : Bool) (maxResults head : ℕ)
    (t : TraceState) : List ProvenanceRecord :=
  if h : head < t.queue.length ∧ t.results.length < maxResults then
    traceLoop copy forward maxResults (head + 1) (t.visit copy forward maxResults t.queue[head])
  else t.results
termination_by provenanceMaxRecords + 1 - head
decreasing_by
  have := t.queue_le
  omega

def trace (start : EntityRef) (forward : Bool) (maxResults : ℕ) : List ProvenanceRecord :=
  if maxResults = 0 then []
  else traceLoop p.window forward maxResults 0 (.start start)

def provenanceTraceFrom (start : EntityRef) (maxResults : ℕ) : List ProvenanceRecord :=
  trace p start true maxResults

def provenanceTraceTo (target : EntityRef) (maxResults : ℕ) : List ProvenanceRecord :=
  trace p target false maxResults

end Aevros
