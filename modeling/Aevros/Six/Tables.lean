import Aevros.Wire.Segment
import Mathlib.Data.Fin.Basic

/-! # LockBox6 and Rolodex6

LockBox6 is a table of 32 slots that works as LockBox does. Rolodex6 knows the hardware addresses of
neighbours.
-/

namespace Aevros

def Ip6.bytes (ip : Ip6) : List Byte := List.ofFn ip

@[simp] theorem Ip6.length_bytes (ip : Ip6) : ip.bytes.length = 16 := List.length_ofFn

abbrev lockbox6Capacity : ℕ := 32
abbrev lockbox6MaxBuffered : ℕ := 4096

/-- An index below `LOCKBOX6_CAPACITY`; a lookup that returns the capacity itself is `none`. -/
abbrev Slot6 := Fin lockbox6Capacity

structure Lockbox6Entry where
  localPort : Port := 0
  remoteIp : Ip6 := fun _ => 0
  remotePort : Port := 0
  protocol : Byte := 0
  bufferedBytes : ℕ := 0
  inUse : Bool := false
  generation : Word := 0
  deriving DecidableEq

abbrev LockBox6 := Slot6 → Lockbox6Entry

structure Tuple6 where
  localPort : Port
  remoteIp : Ip6
  remotePort : Port
  protocol : Byte
  deriving DecidableEq

def lockbox6FindListener (t : LockBox6) (port : Port) (protocol : Byte) : Option Slot6 :=
  Fin.find? fun i => (t i).inUse && (t i).protocol = protocol && (t i).localPort = port

section

variable (e : Lockbox6Entry)

/-- What `lockbox6_claim` writes into a free slot. -/
def Lockbox6Entry.claim (u : Tuple6) : Lockbox6Entry :=
  ⟨u.localPort, u.remoteIp, u.remotePort, u.protocol, 0, true, e.generation + 1⟩

def lockbox6Deposit (bytes : ℕ) : Bool × Lockbox6Entry :=
  if !e.inUse then (false, e)
  else if lockbox6MaxBuffered < e.bufferedBytes + bytes then (false, e)
  else (true, { e with bufferedBytes := e.bufferedBytes + bytes })

def lockbox6Consume (bytes : ℕ) : Lockbox6Entry :=
  if e.bufferedBytes < bytes then { e with bufferedBytes := 0 }
  else { e with bufferedBytes := e.bufferedBytes - bytes }

def lockbox6Release : Lockbox6Entry := { e with inUse := false }

end

structure Rolodex6Entry where
  ip : Ip6 := fun _ => 0
  mac : Mac := {}
  inUse : Bool := false

abbrev rolodex6Capacity : ℕ := 16

abbrev Rolodex6 := Fin rolodex6Capacity → Rolodex6Entry

def rolodex6Lookup (r : Rolodex6) (ip : Ip6) : Option Mac :=
  (Fin.find? fun i => (r i).inUse && (r i).ip = ip).map fun i => (r i).mac

def linkLocal (n : Byte) : Ip6 := fun i =>
  if i.val = 0 then 0xFE else if i.val = 1 then 0x80 else if i.val = 15 then n else 0

/-- A host that knows the hardware address of `fe80::2` only. -/
def echoRolodex : Rolodex6 := fun i =>
  if i.val = 0 then ⟨linkLocal 2, ⟨2, 2, 2, 2, 2, 2⟩, true⟩ else {}

end Aevros
