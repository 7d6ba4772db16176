import Aevros.Wire.Segment
import Mathlib.Data.Fin.Basic

/-! # Curfew and WatchList

Two tables that count misbehaviour in windows of 200 ticks. Curfew evicts the address seen least
recently, WatchList ignores new addresses once it is full.
-/

namespace Aevros

open Function

structure CurfewEntry where
  ip : Ip4 := .zero
  windowStart : Word := 0
  count : Word := 0
  lastSeen : Word := 0
  denied : Bool := false
  inUse : Bool := false
  deriving DecidableEq

abbrev curfewCapacity : ℕ := 64

def curfewWindowTicks : Word := 200
def curfewThreshold : Word := 150

abbrev Curfew := Fin curfewCapacity → CurfewEntry

namespace Curfew

/-- The loop that picks the entry in use with the smallest tick, with the choice so far. -/
def oldest (t : Curfew) : List (Fin curfewCapacity) → Option (Fin curfewCapacity) →
    Option (Fin curfewCapacity)
  | [], best => best
  | i :: is, best =>
    if (t i).inUse && best.all fun b => (t i).lastSeen < (t b).lastSeen then oldest t is (some i)
    else oldest t is best

/-- The place that a new address gets: the first free one, or the one seen least recently. -/
def target (t : Curfew) : Option (Fin curfewCapacity) :=
  match Fin.find? fun i => !(t i).inUse with
  | some i => some i
  | none => t.oldest (List.finRange curfewCapacity) none

def findOrCreate (now : Word) (t : Curfew) (ip : Ip4) : Option (Fin curfewCapacity) × Curfew :=
  match Fin.find? fun i => (t i).inUse && (t i).ip = ip with
  | some i => (some i, t)
  | none => match t.target with
    | some i => (some i, update t i ⟨ip, now, 0, now, false, true⟩)
    | none => (none, t)

def rollWindow (e : CurfewEntry) (now : Word) : CurfewEntry :=
  if curfewWindowTicks < now - e.windowStart then
    { e with windowStart := now, count := 0, denied := false }
  else e

end Curfew

/-- Whether the address is let in, and the new table. -/
def curfewCheck (now : Word) (t : Curfew) (src : Ip4) : Bool × Curfew :=
  match t.findOrCreate now src with
  | (none, t) => (true, t)
  | (some i, t) =>
    let e := Curfew.rollWindow { t i with lastSeen := now } now
    (!e.denied, update t i e)

def curfewStrike (now : Word) (t : Curfew) (src : Ip4) : Curfew :=
  match t.findOrCreate now src with
  | (none, t) => t
  | (some i, t) =>
    let e := Curfew.rollWindow { t i with lastSeen := now } now
    let e := { e with count := e.count + 1 }
    update t i (if curfewThreshold ≤ e.count ∧ !e.denied then { e with denied := true } else e)

structure WatchEntry where
  mac : Mac := {}
  windowStart : Word := 0
  count : Word := 0
  flagged : Bool := false
  inUse : Bool := false
  deriving DecidableEq

abbrev watchlistCapacity : ℕ := 16

def watchWindowTicks : Word := 200
def watchThreshold : Word := 4000

abbrev WatchList := Fin watchlistCapacity → WatchEntry

namespace WatchList

def findEntry (t : WatchList) (mac : Mac) : Option (Fin watchlistCapacity) :=
  Fin.find? fun i => (t i).inUse && (t i).mac = mac

def findOrCreate (now : Word) (t : WatchList) (mac : Mac) :
    Option (Fin watchlistCapacity) × WatchList :=
  match t.findEntry mac with
  | some i => (some i, t)
  | none => match Fin.find? fun i => !(t i).inUse with
    | some i => (some i, update t i ⟨mac, now, 0, false, true⟩)
    | none => (none, t)

def strike (now : Word) (e : WatchEntry) : WatchEntry :=
  let e := if watchWindowTicks < now - e.windowStart then
    { e with windowStart := now, count := 0, flagged := false } else e
  let e := { e with count := e.count + 1 }
  if watchThreshold ≤ e.count then { e with flagged := true } else e

def query (now : Word) (e : WatchEntry) : WatchEntry :=
  if watchWindowTicks < now - e.windowStart then { e with flagged := false } else e

end WatchList

def watchlistStrike (now : Word) (t : WatchList) (src : Mac) : Bool × WatchList :=
  match t.findOrCreate now src with
  | (none, t) => (false, t)
  | (some i, t) =>
    ((WatchList.strike now (t i)).flagged, update t i (WatchList.strike now (t i)))

def watchlistIsFlagged (now : Word) (t : WatchList) (src : Mac) : Bool × WatchList :=
  match t.findEntry src with
  | some i =>
    ((WatchList.query now (t i)).flagged, update t i (WatchList.query now (t i)))
  | none => (false, t)

end Aevros
