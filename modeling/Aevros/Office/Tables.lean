import Aevros.Wire.Segment
import Mathlib.Data.Fin.Basic

/-! # Menu, Atlas and Rolodex

Three fixed-size tables that TCP consults: the ports on the Menu, the routes
of the Atlas and the hardware addresses in the Rolodex. All three are scanned
from the first entry on.
-/

namespace Aevros

open Function Fin

structure MenuEntry where
  port : Port := 0
  protocol : Byte := 0
  inUse : Bool := false
  deriving DecidableEq

abbrev menuCapacity : ℕ := 32

abbrev Menu := Fin menuCapacity → MenuEntry

def menuFindEntry (m : Menu) (port : Port) (protocol : Byte) : Option (Fin menuCapacity) :=
  find? fun i => (m i).inUse && (m i).protocol = protocol && (m i).port = port

def menuIsOpen (m : Menu) (port : Port) (protocol : Byte) : Bool :=
  (menuFindEntry m port protocol).isSome

def menuOpenPort (m : Menu) (port : Port) (protocol : Byte) : Bool × Menu :=
  if menuIsOpen m port protocol then (true, m)
  else match find? fun i => !(m i).inUse with
    | some i => (true, update m i ⟨port, protocol, true⟩)
    | none => (false, m)

structure AtlasRoute where
  gateway : Ip4 := .zero
  netmask : Ip4 := .zero
  network : Ip4 := .zero
  inUse : Bool := false
  deriving DecidableEq

abbrev atlasMaxRoutes : ℕ := 16

structure Atlas where
  routes : Fin atlasMaxRoutes → AtlasRoute := fun _ => {}
  defaultGateway : Ip4 := .zero
  haveDefaultGateway : Bool := false

def sameNet (ip network netmask : Ip4) : Bool :=
  (ip.a &&& netmask.a = network.a &&& netmask.a) &&
    (ip.b &&& netmask.b = network.b &&& netmask.b) &&
    (ip.c &&& netmask.c = network.c &&& netmask.c) && (ip.d &&& netmask.d = network.d &&& netmask.d)

def prefixLen (netmask : Ip4) : ℕ :=
  ((List.range 32).takeWhile fun i => netmask.word.getMsbD i).length

def atlasAddRoute (t : Atlas) (network netmask gateway : Ip4) : Bool × Atlas :=
  match find? fun i =>
      (t.routes i).inUse && (t.routes i).network = network && (t.routes i).netmask = netmask with
  | some i => (true, { t with
      routes := update t.routes i { t.routes i with gateway := gateway } })
  | none => match find? fun i => !(t.routes i).inUse with
    | some i => (true, { t with
        routes := update t.routes i ⟨gateway, netmask, network, true⟩ })
    | none => (false, t)

def atlasRemoveRoute (t : Atlas) (network netmask : Ip4) : Bool × Atlas :=
  match find? fun i =>
      (t.routes i).inUse && (t.routes i).network = network && (t.routes i).netmask = netmask with
  | some i => (true, { t with
      routes := update t.routes i { t.routes i with inUse := false } })
  | none => (false, t)

def atlasSetDefaultGateway (t : Atlas) (gateway : Ip4) : Atlas :=
  { t with defaultGateway := gateway, haveDefaultGateway := gateway ≠ .zero }

/-- The loop of `atlas_lookup` over the remaining routes, with the best slot and prefix so far. -/
def atlasLookupFrom (t : Atlas) (dest : Ip4) :
    List (Fin atlasMaxRoutes) → Option (Fin atlasMaxRoutes) → ℤ → Option Ip4
  | [], _, _ => none
  | i :: is, best, bestPrefix =>
    if !(t.routes i).inUse then atlasLookupFrom t dest is best bestPrefix
    else if !sameNet dest (t.routes i).network (t.routes i).netmask then
      atlasLookupFrom t dest is best bestPrefix
    else
      let len : ℤ := prefixLen (t.routes i).netmask
      -- the source stores the constant 1 here, not the index of the matching route
      let best' := if bestPrefix < len then some 1 else best
      let bestPrefix' := if bestPrefix < len then len else bestPrefix
      match best' with
      | some b => some (if (t.routes b).gateway = .zero then dest else (t.routes b).gateway)
      | none => atlasLookupFrom t dest is best' bestPrefix'

def atlasLookup (t : Atlas) (dest : Ip4) : Option Ip4 :=
  atlasLookupFrom t dest (List.finRange atlasMaxRoutes) none (-1)

structure RolodexEntry where
  ip : Ip4 := .zero
  mac : Mac := {}
  lastSeen : Word := 0
  inUse : Bool := false
  disputed : Bool := false
  deriving DecidableEq

abbrev rolodexCapacity : ℕ := 32

def rolodexEntryTimeoutTicks : Word := 6000

def arpPacketSize : ℕ := 28
def arpRequest : Port := 1
def arpReply : Byte := 2

/-- `pendingReply` is the requester that `rolodex_build_reply` will answer. -/
structure Rolodex where
  book : Fin rolodexCapacity → RolodexEntry := fun _ => {}
  ourIp : Ip4 := .zero
  haveOurIp : Bool := false
  pendingReply : Option (Ip4 × Mac) := none

namespace Rolodex

def findEntry (r : Rolodex) (ip : Ip4) : Option (Fin rolodexCapacity) :=
  find? fun i => (r.book i).inUse && (r.book i).ip = ip

def expireStaleEntries (now : Word) (r : Rolodex) : Rolodex :=
  { r with book := fun i =>
      if (r.book i).inUse && rolodexEntryTimeoutTicks < now - (r.book i).lastSeen then
        { r.book i with inUse := false, disputed := false }
      else r.book i }

def learnOrDispute (now : Word) (r : Rolodex) (ip : Ip4) (mac : Mac) : Rolodex :=
  let r := r.expireStaleEntries now
  match r.findEntry ip with
  | some i =>
    if (r.book i).mac = mac then
      { r with book := update r.book i { r.book i with lastSeen := now } }
    else { r with book := update r.book i { r.book i with disputed := true } }
  | none => match find? fun i => !(r.book i).inUse with
    | some i => { r with book := update r.book i ⟨ip, mac, now, true, false⟩ }
    | none => r

end Rolodex

variable (r : Rolodex)

def rolodexSetIp (ip : Ip4) : Rolodex := { r with ourIp := ip, haveOurIp := true }

def rolodexLearn (now : Word) (r : Rolodex) (ip : Ip4) (mac : Mac) : Rolodex :=
  r.learnOrDispute now ip mac

def rolodexHandle (now : Word) (r : Rolodex) (payload : List Byte) (srcMac : Mac) : Rolodex :=
  if payload.length ≠ arpPacketSize then r
  else
    let senderMac := Mac.read payload 8
    let senderIp := Ip4.read payload 14
    if senderMac ≠ srcMac then r
    else
      let r := r.learnOrDispute now senderIp senderMac
      if be16 payload 6 = arpRequest ∧ r.haveOurIp ∧ Ip4.read payload 24 = r.ourIp then
        { r with pendingReply := some (senderIp, senderMac) }
      else r

def rolodexBuildReply (ourMac : Mac) : Option (List Byte) × Rolodex :=
  match r.pendingReply with
  | none => (none, r)
  | some (ip, mac) =>
    (some ([0x00, 0x01, 0x08, 0x00, 6, 4, 0x00, arpReply] ++ ourMac.bytes ++ r.ourIp.bytes ++
      mac.bytes ++ ip.bytes), { r with pendingReply := none })

def rolodexDisputed (ip : Ip4) : Bool :=
  match r.findEntry ip with
  | some i => (r.book i).disputed
  | none => false

def rolodexLookup (ip : Ip4) : Option Mac :=
  (r.findEntry ip).map fun i => (r.book i).mac

/-- The broadcast frame with an ARP request for `target` that `rolodex_dispatch_request` builds. -/
def arpRequestFrame (target : Ip4) (ourMac : Mac) : Frame :=
  List.replicate 6 0xFF ++ ourMac.bytes ++ [0x08, 0x06] ++
    ([0x00, 0x01, 0x08, 0x00, 6, 4, 0x00, 1] ++ ourMac.bytes ++ r.ourIp.bytes ++
      List.replicate 6 0 ++ target.bytes)

end Aevros
