import Aevros.Wire.Segment
import Mathlib.Data.Fin.Basic

/-! # GuestList, Sentry, Lottery and SynCookie

What decides whether a SYN is let in and with which initial sequence number it is answered.
-/

namespace Aevros

open Function Fin

inductive GuestlistVerdict
  | noRule
  | allowed
  | denied
  deriving DecidableEq

structure GuestlistEntry where
  ip : Ip4 := .zero
  action : GuestlistVerdict := .noRule
  expiresAtTick : Word := 0
  inUse : Bool := false
  deriving DecidableEq

abbrev guestlistCapacity : ℕ := 32

abbrev GuestList := Fin guestlistCapacity → GuestlistEntry

namespace GuestList

def findEntry (l : GuestList) (ip : Ip4) : Option (Fin guestlistCapacity) :=
  find? fun i => (l i).inUse && (l i).ip = ip

end GuestList

def guestlistSet (l : GuestList) (ip : Ip4) (action : GuestlistVerdict) : Bool × GuestList :=
  match l.findEntry ip with
  | some i => (true, update l i { l i with action := action })
  | none => match find? fun i => !(l i).inUse with
    | some i => (true, update l i { l i with ip := ip, action := action, inUse := true })
    | none => (false, l)

def guestlistSetTimed (now : Word) (l : GuestList) (ip : Ip4) (action : GuestlistVerdict)
    (duration : Word) : Bool × GuestList :=
  match guestlistSet l ip action with
  | (false, l) => (false, l)
  | (true, l) => match l.findEntry ip with
    | some i => (true, update l i { l i with expiresAtTick := now + duration })
    | none => (true, l)

def guestlistClear (l : GuestList) (ip : Ip4) : GuestList :=
  match l.findEntry ip with
  | some i => update l i { l i with inUse := false }
  | none => l

def guestlistCheck (l : GuestList) (ip : Ip4) : GuestlistVerdict :=
  match l.findEntry ip with
  | some i => (l i).action
  | none => .noRule

def guestlistTick (now : Word) (l : GuestList) : GuestList := fun i =>
  if !(l i).inUse ∨ (l i).expiresAtTick = 0 then l i
  else if (l i).expiresAtTick ≤ now then { l i with inUse := false }
  else l i

structure PortHit where
  port : Port := 0
  tick : Word := 0
  inUse : Bool := false
  deriving DecidableEq

abbrev sentryPortHistory : ℕ := 8
abbrev sentryCapacity : ℕ := 16

def sentryWindowTicks : Word := 200
def sentryDistinctPortThreshold : ℕ := 6
def sentryBanTicks : Word := 3000

structure SentryEntry where
  ip : Ip4 := .zero
  hits : Fin sentryPortHistory → PortHit := fun _ => {}
  inUse : Bool := false

abbrev Sentry := Fin sentryCapacity → SentryEntry

namespace Sentry

/-- The entry of the address, claimed in the first free place when there is none. -/
def findOrCreate (t : Sentry) (ip : Ip4) : Option (Fin sentryCapacity) × Sentry :=
  match find? fun i => (t i).inUse && (t i).ip = ip with
  | some i => (some i, t)
  | none => match find? fun i => !(t i).inUse with
    | some i => (some i, update t i ⟨ip, fun _ => {}, true⟩)
    | none => (none, t)

def target (hits : Fin sentryPortHistory → PortHit) :
    List (Fin sentryPortHistory) → Option (Fin sentryPortHistory) → Word →
      Option (Fin sentryPortHistory)
  | [], best, _ => best
  | i :: is, best, oldest =>
    if (hits i).inUse then some i
    else if (hits i).tick < oldest then target hits is (some i) (hits i).tick
    else target hits is best oldest

end Sentry

/-- Whether the source is banned now, with the new Sentry and GuestList tables. -/
def sentryObserve (now : Word) (t : Sentry) (l : GuestList) (src : Ip4) (dstPort : Port) :
    Bool × Sentry × GuestList :=
  match t.findOrCreate src with
  | (none, t) => (false, t, l)
  | (some e, t) =>
    let hits : Fin sentryPortHistory → PortHit := fun i =>
      if ((t e).hits i).inUse && sentryWindowTicks ≤ now - ((t e).hits i).tick then
        { (t e).hits i with inUse := false }
      else (t e).hits i
    match find? fun i => (hits i).inUse && (hits i).port = dstPort with
    | some i =>
      let hits := update hits i { hits i with tick := now }
      (false, update t e { t e with hits := hits }, l)
    | none =>
      let hits := match Sentry.target hits (List.finRange _) none (-1) with
        | some i => update hits i ⟨dstPort, now, true⟩
        | none => hits
      let t := update t e { t e with hits := hits }
      if sentryDistinctPortThreshold ≤ Fin.countP fun i => (hits i).inUse then
        (true, t, (guestlistSetTimed now l src .denied sentryBanTicks).2)
      else (false, t, l)

structure Lottery where
  bootSecret : Word := 0
  callCounter : Word := 0
  deriving DecidableEq

def mix32 (x : Word) : Word :=
  let x := x ^^^ (x >>> 16)
  let x := x * 0x85ebca6b
  let x := x ^^^ (x >>> 13)
  let x := x * 0xc2b2ae35
  x ^^^ (x >>> 16)

def lotteryDrawIsn (now : Word) (l : Lottery) (localIp : Ip4) (localPort : Port)
    (remoteIp : Ip4) (remotePort : Port) : Word × Lottery :=
  let h := l.bootSecret
  let h := mix32 (h ^^^ mix32 localIp.word)
  let h := mix32 (h ^^^ mix32 remoteIp.word)
  let h := mix32 (h ^^^ mix32 (localPort ++ remotePort))
  let h := mix32 (h ^^^ mix32 now)
  let h := mix32 (h ^^^ mix32 l.callCounter)
  (h, { l with callCounter := l.callCounter + 1 })

structure SynCookie where
  secret : Word := 0
  secretReady : Bool := false
  deriving DecidableEq

namespace SynCookie

def ensureSecret (now : Word) (k : SynCookie) (l : Lottery) : SynCookie × Lottery :=
  if k.secretReady then (k, l)
  else
    let r := lotteryDrawIsn now l ⟨10, 0, 2, 15⟩ 12345 ⟨1, 2, 3, 4⟩ 54321
    (⟨r.1 ^^^ now, true⟩, r.2)

def mix (secret a b c d : Word) : Word :=
  let h := (secret ^^^ a) * 0x9E3779B1
  let h := (h ^^^ b) * 0x85EBCA77
  let h := (h ^^^ c) * 0xC2B2AE3D
  let h := (h ^^^ d) * 0x27D4EB2F
  h ^^^ (h >>> 15)

/-- The cookie of a 4-tuple in a time bucket, for a secret that is already set. -/
def compute (secret : Word) (src : Ip4) (srcPort : Port) (dst : Ip4) (dstPort : Port)
    (bucket : Word) : Word :=
  mix secret src.word dst.word (srcPort ++ dstPort) bucket

end SynCookie

def timeBucketShift : ℕ := 5

def syncookieLoadNum : ℕ := 3
def syncookieLoadDen : ℕ := 4

def syncookieGenerate (now secret : Word) (src : Ip4) (srcPort : Port) (dst : Ip4)
    (dstPort : Port) : Word :=
  SynCookie.compute secret src srcPort dst dstPort (now >>> timeBucketShift)

def syncookieValidate (now secret : Word) (src : Ip4) (srcPort : Port) (dst : Ip4)
    (dstPort : Port) (ackNum : Word) : Bool :=
  let bucket := now >>> timeBucketShift
  ackNum - 1 = SynCookie.compute secret src srcPort dst dstPort bucket ||
    (0 < bucket && ackNum - 1 = SynCookie.compute secret src srcPort dst dstPort (bucket - 1))

end Aevros
