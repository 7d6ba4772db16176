import Aevros.Library.Keyed
import Aevros.Observe.Observer

/-! # Directory: the DNS client

One query is pending at a time. Its reply is parsed by a program over the packet buffer, and the
first address in it is cached under the name of the query.
-/

namespace Aevros

open Reads Observe

abbrev directoryCacheCapacity : ℕ := 8

def dnsMaxPacket : ℕ := 320
def directoryMaxHostname : ℕ := 63
def directoryTimeoutTicks : Word := 300
/-- A hostname is the bytes before the terminating zero. -/
abbrev Hostname := List Byte

/-- The kernel's `strncpy`, which keeps the last of the `n` bytes for the zero. -/
def strncpy (s : Hostname) (n : ℕ) : Hostname := s.take (n - 1)

def strncmpEq (a b : Hostname) (n : ℕ) : Bool := a.take n = b.take n

structure DirectoryEntry where
  hostname : Hostname := []
  ip : Ip4 := .zero
  expiredAtTick : Word := 0
  inUse : Bool := false
  deriving DecidableEq

structure Directory where
  cache : Fin directoryCacheCapacity → DirectoryEntry := fun _ => {}
  dnsServer : Ip4 := .zero
  haveServer : Bool := false
  pendingHostname : Hostname := []
  pendingId : Port := 0
  pendingSentTick : Word := 0
  pendingActive : Bool := false
  pendingRetried : Bool := false
  nextId : Port := 1

/-- A datagram of `got` bytes at the front of the buffer, whatever stands in `memory` behind. -/
structure DnsDatagram where
  srcIp : Ip4
  srcPort : Port
  got : ℕ
  got_le : got ≤ dnsMaxPacket
  memory : ℕ → Byte

inductive Reply
  | ignored
  | noAnswer
  | answer (ip : Ip4) (ttl : Word)
  | endless
  deriving DecidableEq

def skipName : ℕ → ℕ → Reads Byte (Option ℕ)
  | 0, _ => return none
  | fuel + 1, offset => do
    let b ← cell offset
    if b = 0 then return some ((offset + 1) % 65536)
    else if b &&& 0xC0 = 0xC0 then return some ((offset + 2) % 65536)
    else skipName fuel ((offset + b.toNat + 1) % 65536)

def readAnswers (fuel got : ℕ) : ℕ → ℕ → Reads Byte Reply
  | 0, _ => return .noAnswer
  | n + 1, offset =>
    if got < offset + 10 then return .noAnswer
    else do
      match ← skipName fuel offset with
      | none => return .endless
      | some offset =>
        let rtype ← Observe.be16 offset
        let rclass ← Observe.be16 (offset + 2)
        let ttl ← beIpv4 (offset + 4)
        let rdlength ← Observe.be16 (offset + 8)
        let offset := (offset + 10) % 65536
        if rtype = 1 ∧ rclass = 1 ∧ rdlength = 4 ∧ offset + 4 ≤ got then
          return .answer (← readIp offset) ttl
        else readAnswers fuel got n ((offset + rdlength.toNat) % 65536)

def readReply (fuel got : ℕ) (pendingId : Port) : Reads Byte Reply :=
  if got < 12 then return .ignored
  else do
    let replyId ← Observe.be16 0
    let ancount ← Observe.be16 6
    if replyId = pendingId ∧ ancount ≠ 0 then
      match ← skipName fuel 12 with
      | none => return .endless
      | some offset => readAnswers fuel got ancount.toNat ((offset + 4) % 65536)
    else return .ignored

def encodeLabel (label : List Byte) : List Byte :=
  BitVec.ofNat 8 label.length :: label.take (label.length % 256)

def encodeName (hostname : Hostname) : List Byte :=
  (hostname.splitOn 46).flatMap encodeLabel ++ [0]

namespace Directory

variable (d : Directory)

def findCacheSlot (hostname : Hostname) : Option (Fin directoryCacheCapacity) :=
  Fin.find? fun i => (d.cache i).inUse && strncmpEq (d.cache i).hostname hostname
    directoryMaxHostname

variable (now : Word)

def storeInCache (hostname : Hostname) (ip : Ip4) (ttl : Word) : Directory :=
  let slot := ((d.findCacheSlot hostname).or (Fin.find? fun i => !(d.cache i).inUse)).getD 0
  let entry := ⟨strncpy hostname directoryMaxHostname, ip, now + ttl * 100, true⟩
  { d with cache := Function.update d.cache slot entry }

def directorySetServer (ip : Ip4) : Directory :=
  { d with dnsServer := ip, haveServer := ip ≠ .zero }

def directoryLookupCached (hostname : Hostname) : Option Ip4 × Directory :=
  match d.findCacheSlot hostname with
  | none => (none, d)
  | some i =>
    if (d.cache i).expiredAtTick ≤ now then
      (none, { d with cache := Function.update d.cache i { d.cache i with inUse := false } })
    else (some (d.cache i).ip, d)

/-- The result of `directory_query`, and the packet that it sends. -/
def directoryQuery (hostname : Hostname) : Bool × Directory × Option (List Byte) :=
  let found := d.directoryLookupCached now hostname
  let d := found.2
  if found.1.isSome then (true, d, none)
  else if !d.haveServer then (false, d, none)
  else if d.pendingActive then (false, d, none)
  else
    (true, { d with
        nextId := d.nextId + 1
        pendingId := d.nextId
        pendingHostname := strncpy hostname directoryMaxHostname
        pendingSentTick := now
        pendingActive := true
        pendingRetried := false },
      some (bytes16 d.nextId ++ [1, 0, 0, 1, 0, 0, 0, 0, 0, 0] ++ encodeName hostname ++
        [0, 1, 0, 1]))

/-- The end of `directory_tick`: a query that was not answered in time is sent once more. -/
def timeOut : Directory :=
  if now - d.pendingSentTick < directoryTimeoutTicks then d
  else if d.pendingRetried then { d with pendingActive := false }
  else
    let hostnameCopy := strncpy d.pendingHostname directoryMaxHostname
    let d := { d with pendingSentTick := now, pendingActive := false }
    { (d.directoryQuery now hostnameCopy).2.1 with pendingRetried := true }

/-- The reply that the datagram is taken for, where 2^16 offsets without an end are endless. -/
def replyIn (r : DnsDatagram) : Reply :=
  (readReply 65536 r.got d.pendingId).run r.memory

/-- With the datagram that was waiting, of no bytes if there was none. -/
def directoryTick (r : DnsDatagram) : Directory :=
  if !d.pendingActive then d
  else match d.replyIn r with
    | .ignored => d.timeOut now
    | .noAnswer => { d with pendingActive := false }
    | .answer ip ttl =>
      { d.storeInCache now d.pendingHostname ip (if ttl = 0 then 60 else ttl) with
        pendingActive := false }
    | .endless => d

end Directory

end Aevros
