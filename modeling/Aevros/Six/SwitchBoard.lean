import Aevros.Six.Connection
import Aevros.Sockets.Frontdoor

/-! # Accepting a connection of either family

`Host` has the rows of the IPv6 stack beside the tables of `Net`. `frontdoor_accept` asks the stack
of the listening socket and then looks for a free socket.
-/

namespace Aevros

/-- The row of an IPv6 slot and the generation of it that SwitchBoard6 handed out last. -/
structure Line6 where
  conn : Conn6 := {}
  acceptedGeneration : Word := 0

structure Host where
  net : Net := {}
  lines6 : Slot6 → Line6 := fun _ => {}

def switchboard6Accept (t : Slot6 → Line6) (port : Port) : Option Slot6 × (Slot6 → Line6) :=
  match Fin.find? fun i => (t i).conn.box.inUse && (t i).conn.box.localPort = port &&
      (t i).conn.box.protocol = 6 &&
      (t i).acceptedGeneration ≠ (t i).conn.box.generation &&
      (t i).conn.rapport.status = .established with
  | none => (none, t)
  | some c => (some c, Function.update t c
      { t c with acceptedGeneration := (t c).conn.box.generation })

namespace Host

/-- `frontdoor_accept`, with the branch for IPv4 sockets as in `frontdoorAccept`. -/
def accept (h : Host) (fd : ℤ) : ℤ × Host :=
  match h.net.socket fd with
  | none => (-1, h)
  | some i =>
    if !(h.net.sockets i).listening then (-1, h)
    else if (h.net.sockets i).kind = .tcp6 then
      match switchboard6Accept h.lines6 (h.net.sockets i).localPort with
      | (none, t) => (-1, { h with lines6 := t })
      | (some c, t) => match findFreeSlot h.net with
        | (none, s) => (-1, ⟨s, t⟩)
        | (some j, s) => ((j : ℕ), ⟨s.setSocket j { s.sockets j with
            kind := .tcp6, listening := false, connId6 := some c,
            localPort := (s.sockets i).localPort, inUse := true }, t⟩)
    else
      let r := frontdoorAccept h.net fd
      (r.1, { h with net := r.2 })

end Host

end Aevros
