import Aevros.Wire.Segment

/-! # Reassembly of IPv6 fragments

Four slots collect the fragments of one packet each, with one bit for every unit of 8 bytes that has
arrived. A fragment that overlaps or contradicts ends the reassembly.
-/

namespace Aevros

abbrev fragment6MaxReassemblies : ℕ := 4
abbrev fragment6MaxTotalBytes : ℕ := 2048
def fragment6TimeoutTicks : Word := 500

abbrev units : ℕ := fragment6MaxTotalBytes / 8
abbrev unitBytes : ℕ := (units + 7) / 8

instance : NeZero unitBytes := ⟨by decide⟩

abbrev Bitmap := Fin unitBytes → Byte

def bitTest (bitmap : Bitmap) (unit : ℕ) : Bool :=
  (bitmap (Fin.ofNat unitBytes (unit / 8))).getLsbD (unit % 8)

def bitSet (bitmap : Bitmap) (unit : ℕ) : Bitmap :=
  let i := Fin.ofNat unitBytes (unit / 8)
  Function.update bitmap i (bitmap i ||| 1#8 <<< (unit % 8))

def rangeOverlaps (bitmap : Bitmap) (start stop : ℕ) : Bool :=
  (List.range' start (stop - start)).any (bitTest bitmap)

structure Fragment where
  nextHeader : Byte
  offsetUnits : ℕ
  moreFragments : Bool
  id : Word
  data : List Byte
  deriving DecidableEq

namespace Fragment

def read (p : Packet) : Option Fragment :=
  if p.bytes.length < 8 then none
  else
    let offsetFlags := be16 p.bytes 2
    some {
      nextHeader := p.bytes.getD 0 0
      offsetUnits := (offsetFlags >>> 3).toNat
      moreFragments := offsetFlags.getLsbD 0
      id := be32 p.bytes 4
      data := p.bytes.drop 8 }

def offsetBytes (f : Fragment) : ℕ := f.offsetUnits * 8

/-- The unit after the last one of the fragment, whose tail is rounded up. -/
def endUnit (f : Fragment) : ℕ := min ((f.offsetBytes + f.data.length + 7) / 8) units

end Fragment

/-- The packet that fragments belong to: its addresses and its identification. -/
abbrev FragmentKey := Ip6 × Ip6 × Word

structure Reassembly where
  srcIp : Ip6 := fun _ => 0
  dstIp : Ip6 := fun _ => 0
  id : Word := 0
  nextHeader : Byte := 0
  buf : Fin fragment6MaxTotalBytes → Byte := fun _ => 0
  unitBitmap : Bitmap := fun _ => 0
  totalLen : ℕ := 0
  haveLast : Bool := false
  createdTick : Word := 0
  inUse : Bool := false

structure Fragments where
  slots : Fin fragment6MaxReassemblies → Reassembly := fun _ => {}
  completedCount : Word := 0
  overlapCount : Word := 0
  timeoutCount : Word := 0

structure Reassembled where
  nextHeader : Byte
  len : ℕ
  buf : List Byte
  deriving DecidableEq

def findSlot (slots : Fin fragment6MaxReassemblies → Reassembly) (src dst : Ip6) (id : Word) :
    Option (Fin fragment6MaxReassemblies) :=
  Fin.find? fun i => (slots i).inUse && (slots i).id = id && (slots i).srcIp = src &&
    (slots i).dstIp = dst

def freeReassembly (slots : Fin fragment6MaxReassemblies → Reassembly) :
    Option (Fin fragment6MaxReassemblies) :=
  Fin.find? fun i => !(slots i).inUse

namespace Reassembly

variable (s : Reassembly)

def abortSlot : Reassembly := { s with inUse := false }

/-- The slot for a new packet. The buffer keeps what an earlier packet left there. -/
def create (now : Word) (src dst : Ip6) (f : Fragment) (s : Reassembly) : Reassembly :=
  { s with
    srcIp := src
    dstIp := dst
    id := f.id
    nextHeader := f.nextHeader
    unitBitmap := fun _ => 0
    totalLen := 0
    haveLast := false
    createdTick := now
    inUse := true }

def copy (f : Fragment) (s : Reassembly) : Reassembly :=
  { s with
    buf := fun j =>
      if f.offsetBytes ≤ j ∧ j < f.offsetBytes + f.data.length then
        f.data.getD (j - f.offsetBytes) 0
      else s.buf j
    unitBitmap := (List.range' f.offsetUnits (f.endUnit - f.offsetUnits)).foldl bitSet
      s.unitBitmap }

/-- A final fragment tells the length of the packet. -/
def noteLast (f : Fragment) (s : Reassembly) : Reassembly :=
  if f.moreFragments then s
  else { s with haveLast := true, totalLen := f.offsetBytes + f.data.length }

theorem noteLast_eq (f : Fragment) (s : Reassembly) : s.noteLast f = { s with
    haveLast := s.haveLast || !f.moreFragments
    totalLen := if f.moreFragments then s.totalLen else f.offsetBytes + f.data.length } := by
  cases hm : f.moreFragments <;> simp [noteLast, hm]

def neededUnits : ℕ := (s.totalLen + 7) / 8

def complete : Bool :=
  s.haveLast && (List.range s.neededUnits).all (bitTest s.unitBitmap)

def output : Reassembled :=
  ⟨s.nextHeader, s.totalLen, (List.ofFn s.buf).take s.totalLen⟩

end Reassembly

namespace Fragments

def put (r : Fragments) (i : Fin fragment6MaxReassemblies) (s : Reassembly) : Fragments :=
  { r with slots := Function.update r.slots i s }

/-- `fragment6_receive` from the overlap check on, with the slot of the packet. -/
def collect (r : Fragments) (i : Fin fragment6MaxReassemblies) (s : Reassembly) (f : Fragment) :
    Option Reassembled × Fragments :=
  if rangeOverlaps s.unitBitmap f.offsetUnits f.endUnit then
    (none, { r.put i s.abortSlot with overlapCount := r.overlapCount + 1 })
  else
    let s := s.copy f
    if !f.moreFragments && s.haveLast then (none, r.put i s.abortSlot)
    else
      let s := s.noteLast f
      if s.complete then
        (some s.output, { r.put i s.abortSlot with completedCount := r.completedCount + 1 })
      else (none, r.put i s)

end Fragments

def fragment6Receive (now : Word) (r : Fragments) (src dst : Ip6) (p : Packet) :
    Option Reassembled × Fragments :=
  match Fragment.read p with
  | none => (none, r)
  | some f =>
    if f.moreFragments && f.data.length % 8 ≠ 0 then (none, r)
    else if fragment6MaxTotalBytes < f.offsetBytes + f.data.length then
      match findSlot r.slots src dst f.id with
      | some i => (none, r.put i (r.slots i).abortSlot)
      | none => (none, r)
    else match findSlot r.slots src dst f.id with
      | some i =>
        if (r.slots i).nextHeader ≠ f.nextHeader then (none, r.put i (r.slots i).abortSlot)
        else r.collect i (r.slots i) f
      | none => match freeReassembly r.slots with
        | none => (none, r)
        | some i => r.collect i ((r.slots i).create now src dst f) f

def Reassembly.expired (now : Word) (s : Reassembly) : Bool :=
  s.inUse && fragment6TimeoutTicks < now - s.createdTick

def fragment6Tick (now : Word) (r : Fragments) : Fragments :=
  { r with
    slots := fun i => if (r.slots i).expired now then (r.slots i).abortSlot else r.slots i
    timeoutCount := r.timeoutCount + BitVec.ofNat 32 (Fin.countP fun i => (r.slots i).expired now) }

end Aevros
