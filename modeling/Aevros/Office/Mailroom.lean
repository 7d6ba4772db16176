import Aevros.Observe.Observer
import Aevros.Office.Tables
import Aevros.Wire.Datagram

/-! # Mailroom: frames and their departments

The observer is shown a frame without its checksum of four bytes, and what is behind the Ethernet
header goes to the department for its type.
-/

namespace Aevros

def minEthertype : Port := 0x0600
def ethertypeVlan : Port := 0x8100

inductive Department
  | rolodex
  | compass
  | compass6
  deriving DecidableEq

def departments : List (Port × Department) :=
  [(ethertypeIpv6, .compass6), (ethertypeIpv4, .compass), (ethertypeArp, .rolodex)]

def mailroomDeliver (frame : Frame) : Option (Department × List Byte × Mac) :=
  let ethertype := be16 frame 12
  if ethertype < minEthertype ∨ ethertype = ethertypeVlan then none
  else (departments.lookup ethertype).map fun department =>
    (department, frame.drop ethHeader, Mac.read frame 6)

def deliverToRolodex (now : Word) (r : Rolodex) (frame : Frame) : Rolodex :=
  match mailroomDeliver frame with
  | some (.rolodex, payload, srcMac) => rolodexHandle now r payload srcMac
  | _ => r

/-- The bytes of a received frame that `frontdesk_deliver` shows to the observer. -/
def observedPart (frame : Frame) : Frame :=
  if 4 < frame.length then frame.take (frame.length - 4) else frame

end Aevros
