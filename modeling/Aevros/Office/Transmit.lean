import Aevros.Office.Tables
import Aevros.Office.Admission
import Aevros.Office.FrontDesk

/-! # The office: Bailiff, ARP requests and Foyer

A frame leaves through Bailiff against a pass for its exact bytes. Foyer holds frames whose next hop
has no known hardware address and asks for it by ARP.
-/

namespace Aevros

open Function

def bailiffMaxFrame : ℕ := 1600
def bailiffPassTimeoutTicks : Word := 500

abbrev bailiffMaxPasses : ℕ := 32

structure HallPass where
  passId : Word := 0
  declaredLen : ℕ := 0
  contentChecksum : Word := 0
  issuedAt : Word := 0
  inUse : Bool := false
  deriving DecidableEq

structure Bailiff where
  passes : Fin bailiffMaxPasses → HallPass := fun _ => {}
  nextPassId : Word := 1

abbrev foyerCapacity : ℕ := 16

def foyerMaxRetries : Word := 5
def foyerRetryIntervalTick : Word := 100

structure FoyerEntry where
  targetIp : Ip4 := .zero
  frame : Frame := []
  inUse : Bool := false
  lastAttempt : Word := 0
  retryCount : Word := 0
  deriving DecidableEq

abbrev Foyer := Fin foyerCapacity → FoyerEntry

/-- The answers of the IPv6 socket calls, which work on tables of their own. -/
structure SwitchBoard6 where
  bind : Port → Bool := fun _ => false
  connect : Option (Fin 32) := none
  accept : Port → Option (Fin 32) := fun _ => none
  send : Fin 32 → List Byte → Bool := fun _ _ => false
  recv : Fin 32 → ℕ → List Byte := fun _ _ => []
  state : Fin 32 → ConversationState := fun _ => .closed
  close : Fin 32 → Bool := fun _ => false

/-- The state shared by all connections. `wire` lists the frames the driver took, oldest first. -/
structure Office where
  ticks : Word := 0
  menu : Menu := fun _ => {}
  atlas : Atlas := {}
  rolodex : Rolodex := {}
  guestlist : GuestList := fun _ => {}
  sentry : Sentry := fun _ => {}
  lottery : Lottery := {}
  syncookie : SynCookie := {}
  bailiff : Bailiff := {}
  frontdesk : FrontDesk := {}
  foyer : Foyer := fun _ => {}
  switchboard6 : SwitchBoard6 := {}
  wire : List Frame := []

namespace Bailiff

def checksum (data : Frame) : Word :=
  data.foldl (fun sum b => (sum ^^^ b.setWidth 32) * 16777619) 2166136261

def reclaimExpired (now : Word) (b : Bailiff) : Bailiff :=
  { b with passes := fun i =>
      if (b.passes i).inUse && bailiffPassTimeoutTicks < now - (b.passes i).issuedAt then
        { b.passes i with inUse := false }
      else b.passes i }

def freePass (b : Bailiff) : Option (Fin bailiffMaxPasses) :=
  Fin.find? fun i => !(b.passes i).inUse

def findPass (b : Bailiff) (passId : Word) : Option (Fin bailiffMaxPasses) :=
  Fin.find? fun i => (b.passes i).inUse && (b.passes i).passId = passId

end Bailiff

variable (o : Office)

def bailiffRequestPass (frame : Frame) : Option Word × Office :=
  if frame.length = 0 ∨ bailiffMaxFrame < frame.length then (none, o)
  else
    let b := o.bailiff.reclaimExpired o.ticks
    match b.freePass with
    | none => (none, { o with bailiff := b })
    | some i =>
      let pass : HallPass :=
        ⟨b.nextPassId, frame.length, Bailiff.checksum frame, o.ticks, true⟩
      (some b.nextPassId, { o with bailiff :=
        ⟨update b.passes i pass, b.nextPassId + 1⟩ })

def bailiffPresentPass (passId : Word) (frame : Frame) : Bool × Office :=
  let b := o.bailiff.reclaimExpired o.ticks
  match b.findPass passId with
  | none => (false, { o with bailiff := b })
  | some i =>
    if (b.passes i).declaredLen ≠ frame.length then (false, { o with bailiff := b })
    else if (b.passes i).contentChecksum ≠ Bailiff.checksum frame then
      (false, { o with bailiff := b })
    else
      let sent := frontdeskSend o.frontdesk frame
      let b := { b with passes := update b.passes i { b.passes i with inUse := false } }
      (sent.1, { o with
        bailiff := b
        frontdesk := sent.2
        wire := if sent.1 then o.wire ++ [frame] else o.wire })

def bailiffTransmit (frame : Frame) : Bool × Office :=
  match bailiffRequestPass o frame with
  | (none, o) => (false, o)
  | (some passId, o) => bailiffPresentPass o passId frame

def rolodexDispatchRequest (target : Ip4) (ourMac : Mac) : Option Word × Office :=
  if !o.rolodex.haveOurIp then (none, o)
  else bailiffRequestPass o (arpRequestFrame o.rolodex target ourMac)

variable (ourMac : Mac)

def sendArpRequest (target : Ip4) : Office :=
  match rolodexDispatchRequest o target ourMac with
  | (none, o) => o
  | (some passId, o) => (bailiffPresentPass o passId (arpRequestFrame o.rolodex target ourMac)).2

def readdress (mac : Mac) (frame : Frame) : Frame := (mac.bytes ++ frame.drop 6).take frame.length

def foyerFreeSlot (y : Foyer) : Option (Fin foyerCapacity) := Fin.find? fun i => !(y i).inUse

def foyerQueue (target : Ip4) (ourMac : Mac) (frame : Frame) : Bool × Office :=
  if frame.length = 0 ∨ bailiffMaxFrame < frame.length then (false, o)
  else
    let requestedAlready := (Fin.find? fun i =>
      (o.foyer i).inUse && (o.foyer i).targetIp = target).isSome
    match foyerFreeSlot o.foyer with
    | none => (false, o)
    | some i =>
      match rolodexLookup o.rolodex target with
      | some mac =>
        let e : FoyerEntry := ⟨target, readdress mac frame, false, o.ticks, 0⟩
        (true, (bailiffTransmit { o with foyer := update o.foyer i e } e.frame).2)
      | none =>
        let e : FoyerEntry := ⟨target, frame, true, o.ticks, 0⟩
        let o := { o with foyer := update o.foyer i e }
        (true, if requestedAlready then o else sendArpRequest o ourMac target)

def foyerTickEntry (o : Office) (i : Fin foyerCapacity) : Office :=
  let e := o.foyer i
  if !e.inUse then o
  else match rolodexLookup o.rolodex e.targetIp with
    | some mac =>
      let e' : FoyerEntry := { e with frame := readdress mac e.frame, inUse := false }
      (bailiffTransmit { o with foyer := update o.foyer i e' } e'.frame).2
    | none =>
      if o.ticks - e.lastAttempt < foyerRetryIntervalTick then o
      else if foyerMaxRetries ≤ e.retryCount then
        { o with foyer := update o.foyer i { e with inUse := false } }
      else
        let e' := { e with retryCount := e.retryCount + 1, lastAttempt := o.ticks }
        sendArpRequest { o with foyer := update o.foyer i e' } ourMac e.targetIp

def foyerTick : Office :=
  (List.finRange foyerCapacity).foldl (foyerTickEntry ourMac) o

end Aevros
