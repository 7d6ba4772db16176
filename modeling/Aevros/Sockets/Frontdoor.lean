import Aevros.Sockets.SwitchBoard

/-! # Frontdoor, the sockets, and the system

The socket calls work on a table of 32 entries. The system takes one event after the other: a
segment, a socket call, a timer loop or a change of the office.
-/

namespace Aevros

section

variable (s : Net)

section

variable (fd : ℤ)

def Net.socket : Option (Fin frontdoorMaxSockets) :=
  if h : 0 ≤ fd ∧ fd < frontdoorMaxSockets then
    let i : Fin frontdoorMaxSockets := ⟨fd.toNat, by omega⟩
    if (s.sockets i).inUse then some i else none
  else none

theorem Net.socket_eq_some_iff {s : Net} {fd : ℤ} {i : Fin frontdoorMaxSockets} :
    s.socket fd = some i ↔ fd = (i : ℕ) ∧ (s.sockets i).inUse = true := by
  unfold Net.socket
  constructor
  · intro h
    split_ifs at h with hr
    dsimp only at h
    split_ifs at h with hu
    cases h
    exact ⟨(Int.toNat_of_nonneg hr.1).symm, hu⟩
  · rintro ⟨rfl, hu⟩
    simp [hu]

def Net.setSocket (i : Fin frontdoorMaxSockets) (e : SocketEntry) : Net :=
  { s with sockets := Function.update s.sockets i e }

def getIdentity (o : Office) : Identity := ⟨o.frontdesk.mac, o.rolodex.ourIp⟩

/-- The first free entry of the table, with its closing mark cleared. -/
def findFreeSlot : Option (Fin frontdoorMaxSockets) × Net :=
  match Fin.find? fun i => !(s.sockets i).inUse with
  | none => (none, s)
  | some i => (some i, s.setSocket i { s.sockets i with closing := false })

def sockType (type : ℤ) : Option SockKind :=
  if type = 1 then some .tcp else if type = 2 then some .udp else if type = 3 then some .tcp6
  else none

def frontdoorSocket (type : ℤ) : ℤ × Net :=
  match sockType type with
  | none => (-1, s)
  | some kind => match findFreeSlot s with
    | (none, s) => (-1, s)
    | (some i, s) => ((i : ℕ), s.setSocket i { s.sockets i with
        kind := kind, listening := false, connId := none, connId6 := none,
        localPort := 0, inUse := true })

def frontdoorBind (port : Port) : ℤ × Net :=
  match s.socket fd with
  | none => (-1, s)
  | some i => match (s.sockets i).kind with
    | .tcp6 =>
      if !s.office.switchboard6.bind port then (-1, s)
      else (0, s.setSocket i { s.sockets i with localPort := port, listening := true })
    | .tcp => match switchboardBind s port 6 with
      | (false, s) => (-1, s)
      | (true, s) => (0, s.setSocket i { s.sockets i with localPort := port, listening := true })
    | .udp => match switchboardBind s port 17 with
      | (false, s) => (-1, s)
      | (true, s) => (0, s.setSocket i { s.sockets i with localPort := port })

def frontdoorConnect (ip : Ip4) (port : Port) : ℤ × Net :=
  match s.socket fd with
  | none => (-1, s)
  | some i =>
    if (s.sockets i).kind ≠ .tcp then (-1, s)
    else match switchboardConnect s ip port (getIdentity s.office) with
      | (none, s) => (-1, s)
      | (some c, s) => (0, s.setSocket i { s.sockets i with
          connId := some c, obtained := s.claims c })

def frontdoorConnect6 : ℤ × Net :=
  match s.socket fd with
  | none => (-1, s)
  | some i =>
    if (s.sockets i).kind ≠ .tcp6 then (-1, s)
    else match s.office.switchboard6.connect with
      | none => (-1, s)
      | some c => (0, s.setSocket i { s.sockets i with connId6 := some c })

def frontdoorAccept : ℤ × Net :=
  match s.socket fd with
  | none => (-1, s)
  | some i =>
    if !(s.sockets i).listening then (-1, s)
    else if (s.sockets i).kind = .tcp6 then
      match s.office.switchboard6.accept (s.sockets i).localPort with
      | none => (-1, s)
      | some c => match findFreeSlot s with
        | (none, s) => (-1, s)
        | (some j, s) => ((j : ℕ), s.setSocket j { s.sockets j with
            kind := .tcp6, listening := false, connId6 := some c,
            localPort := (s.sockets i).localPort, inUse := true })
    else match switchboardAccept s (s.sockets i).localPort with
      | (none, s) => (-1, s)
      | (some c, s) => match findFreeSlot s with
        | (none, s) => (-1, s)
        | (some j, s) => ((j : ℕ), s.setSocket j { s.sockets j with
            kind := .tcp, listening := false, connId := some c,
            localPort := (s.sockets i).localPort, inUse := true, obtained := s.claims c })

def frontdoorSend (buf : List Byte) : ℤ × Net :=
  match s.socket fd with
  | none => (-1, s)
  | some i =>
    if (s.sockets i).listening then (-1, s)
    else match (s.sockets i).kind with
      | .tcp6 => match (s.sockets i).connId6 with
        | none => (-1, s)
        | some c => (if s.office.switchboard6.send c buf then (buf.length : ℤ) else -1, s)
      | .udp => (-1, s)
      | .tcp => match (s.sockets i).connId with
        | none => (-1, s)
        | some c =>
          let me := getIdentity s.office
          let r := switchboardSend s.office (s.conns c) buf me
          (if r.1 then (buf.length : ℤ) else -1,
            { s.act c (.send s.office buf me) with office := r.2.1 })

/-- The states in which an empty read is reported as the end of the stream. -/
def endOfStream (st : ConversationState) : Bool :=
  st = .closed || st = .timeWait || st = .closeWait

/-- The result of a read and the bytes it put into the buffer. -/
def frontdoorRecv (maxLen : ℕ) : (ℤ × List Byte) × Net :=
  match s.socket fd with
  | none => ((-1, []), s)
  | some i =>
    if (s.sockets i).listening then ((-1, []), s)
    else match (s.sockets i).kind with
      | .tcp6 =>
        let got := ((s.sockets i).connId6.map fun c => s.office.switchboard6.recv c maxLen).getD []
        let st := ((s.sockets i).connId6.map s.office.switchboard6.state).getD .closed
        ((if 0 < got.length then (got.length : ℤ) else if endOfStream st then -1 else 0, got), s)
      | .udp => ((-1, []), s)
      | .tcp => match (s.sockets i).connId with
        | none => ((-1, []), s)
        | some c =>
          let got := (switchboardRecv (s.conns c) maxLen).1
          let s := s.act c (.recv maxLen)
          ((if 0 < got.length then (got.length : ℤ)
            else if endOfStream (s.conns c).rapport.status then -1 else 0, got), s)

def udpEphemeralLow : Port := 40000
def udpEphemeralHigh : Port := 40999

def pickUdpEphemeral : Option Port × Net :=
  let r := pickPort s.lockbox 17 udpEphemeralLow udpEphemeralHigh
    (udpEphemeralHigh - udpEphemeralLow).toNat s.nextUdpEphemeral
  (r.1, { s with nextUdpEphemeral := r.2 })

/-- `frontdoor_sendto` up to the office: an unbound socket is bound to an ephemeral port. -/
def frontdoorSendtoBind : Net :=
  match s.socket fd with
  | none => s
  | some i =>
    if (s.sockets i).kind ≠ .udp ∨ (s.sockets i).localPort ≠ 0 then s
    else match pickUdpEphemeral s with
      | (none, s) => s
      | (some port, s) => match switchboardBind s port 17 with
        | (false, s) => s
        | (true, s) => s.setSocket i { s.sockets i with localPort := port }

/-- Whether the socket needs no FIN any more, and the state after trying to send one. -/
def trySendFin (i : Fin frontdoorMaxSockets) : Bool × Net :=
  let e := s.sockets i
  if e.listening then (true, s)
  else match e.kind with
    | .udp => (true, s)
    | .tcp6 => match e.connId6 with
      | none => (true, s)
      | some c =>
        let st := s.office.switchboard6.state c
        (if st = .established ∨ st = .closeWait then s.office.switchboard6.close c else true, s)
    | .tcp => match e.connId with
      | none => (true, s)
      | some c =>
        let st := (s.conns c).rapport.status
        if st = .established ∨ st = .closeWait then
          let me := getIdentity s.office
          let r := switchboardClose s.office (s.conns c) me
          (r.1, { s.act c (.close s.office me) with office := r.2.1 })
        else (true, s)

def frontdoorClose : ℤ × Net :=
  match s.socket fd with
  | none => (-1, s)
  | some i => match trySendFin s i with
    | (false, s) => (0, s.setSocket i { s.sockets i with closing := true })
    | (true, s) => (0, s.setSocket i { s.sockets i with inUse := false })

end

def frontdoorTickSocket (i : Fin frontdoorMaxSockets) : Net :=
  if (s.sockets i).inUse && (s.sockets i).closing then
    match trySendFin s i with
    | (false, s) => s
    | (true, s) => s.setSocket i { s.sockets i with closing := false, inUse := false }
  else s

def frontdoorTick : Net :=
  (List.finRange frontdoorMaxSockets).foldl frontdoorTickSocket s

def rapportTickSlot (c : Slot) : Net :=
  if timeWaitExpired s.office.ticks (s.conns c) then s.act c .expire else s

def rapportTick : Net := (List.finRange lockboxCapacity).foldl rapportTickSlot s

def schedulerTickSlot (c : Slot) : Net :=
  if (s.conns c).scheduler.state ≠ .retry then s
  else (s.act c (.timer s.office.ticks)).resend (schedulerTimer s.office.ticks (s.conns c)).1

def schedulerTick : Net := (List.finRange lockboxCapacity).foldl schedulerTickSlot s

inductive Event
  | segment (p : Packet) (src dst : Ip4)
  | socket (type : ℤ)
  | bind (fd : ℤ) (port : Port)
  | connect (fd : ℤ) (ip : Ip4) (port : Port)
  | connect6 (fd : ℤ)
  | accept (fd : ℤ)
  | send (fd : ℤ) (buf : List Byte)
  | recv (fd : ℤ) (maxLen : ℕ)
  | sendto (fd : ℤ)
  | close (fd : ℤ)
  | rapportTick
  | schedulerTick
  | foyerTick
  | frontdoorTick
  | listen (port : Port) (protocol : Byte)
  | clock (ticks : Word)
  /-- Another part of the kernel or the network card changes the office. -/
  | outside (o : Office)

def Net.step : Event → Net
  | .segment p src dst => conversationHandle s p src dst
  | .socket type => (frontdoorSocket s type).2
  | .bind fd port => (frontdoorBind s fd port).2
  | .connect fd ip port => (frontdoorConnect s fd ip port).2
  | .connect6 fd => (frontdoorConnect6 s fd).2
  | .accept fd => (frontdoorAccept s fd).2
  | .send fd buf => (frontdoorSend s fd buf).2
  | .recv fd maxLen => (frontdoorRecv s fd maxLen).2
  | .sendto fd => frontdoorSendtoBind s fd
  | .close fd => (frontdoorClose s fd).2
  | .rapportTick => rapportTick s
  | .schedulerTick => schedulerTick s
  | .foyerTick => { s with office := foyerTick s.office s.office.frontdesk.mac }
  | .frontdoorTick => frontdoorTick s
  | .listen port protocol => (switchboardBind s port protocol).2
  | .clock ticks => { s with office := { s.office with ticks := s.office.ticks + ticks } }
  | .outside o => { s with office := o }

/-! ## A sample host

The host `10.0.2.15` with port 80 on the Menu, a route to its own network and the hardware
address of the peer `10.0.2.2`. The counterexamples below run on it. -/

end

def sampleIp : Ip4 := ⟨10, 0, 2, 15⟩
def samplePeer : Ip4 := ⟨10, 0, 2, 2⟩

def sampleOffice : Office where
  menu := (menuOpenPort (fun _ => {}) 80 6).2
  atlas := (atlasAddRoute {} ⟨10, 0, 2, 0⟩ ⟨255, 255, 255, 0⟩ .zero).2
  rolodex := rolodexLearn 0 (rolodexSetIp {} sampleIp) samplePeer ⟨2, 2, 2, 2, 2, 2⟩
  frontdesk := .idle ⟨1, 1, 1, 1, 1, 1⟩

def fromPeer (seq ack : Word) (flags : Byte) (data : List Byte)
    (h : data.length < 65516 := by first | with_reducible exact length_nil_lt | simp) : Event :=
  .segment (Segment.packet ⟨1001, 80, seq, ack, flags, 4096, data⟩ samplePeer sampleIp h)
    samplePeer sampleIp

def sampleIsn : Word := 356396804

def sampleHandshake : List Event :=
  [.socket 1, .bind 0 80, fromPeer 7 0 0x02 [], fromPeer 8 (sampleIsn + 1) 0x10 [], .accept 0]

end Aevros
