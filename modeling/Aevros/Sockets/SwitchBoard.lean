import Aevros.Tcp.Conversation

/-! # The TCP tables: arriving segments and SwitchBoard

`conversationHandle` finds the slot of an arriving segment, and the SwitchBoard functions open, bind
and accept connections. Every change of a row goes through `Net.act`.
-/

namespace Aevros

inductive SockKind
  | tcp
  | udp
  | tcp6
  deriving DecidableEq

/-- A socket with an IPv4 and an IPv6 slot, `none` where the source stores the capacity. -/
structure SocketEntry where
  kind : SockKind := .tcp
  listening : Bool := false
  connId : Option Slot := none
  connId6 : Option (Fin 32) := none
  localPort : Port := 0
  inUse : Bool := false
  closing : Bool := false
  /-- History: how often the slot had been claimed when the socket got it. -/
  obtained : ℕ := 0
  deriving DecidableEq

abbrev frontdoorMaxSockets : ℕ := 32

structure Net where
  conns : Slot → Conn := fun _ => {}
  office : Office := {}
  sockets : Fin frontdoorMaxSockets → SocketEntry := fun _ => {}
  nextEphemeral : Port := 49152
  nextUdpEphemeral : Port := 40000
  /-- History: what was done to which slot, oldest first. -/
  journal : List (Slot × ConnEvent) := []

namespace Net

def boot (o : Office) : Net := { office := o }

variable (s : Net)

def lockbox : LockBox := fun i => (s.conns i).box

def act (c : Slot) (e : ConnEvent) : Net :=
  { s with
    conns := Function.update s.conns c ((s.conns c).step e)
    journal := s.journal ++ [(c, e)] }

def resend : Option Frame → Net
  | none => s
  | some frame => { s with office := (bailiffTransmit s.office frame).2 }

def history (c : Slot) : List ConnEvent :=
  (s.journal.filter fun a => a.1 = c).map Prod.snd

end Net

/-- The events that claim the slot. -/
def ConnEvent.isClaim : ConnEvent → Bool
  | .syn .. | .cookie .. | .connect .. | .listen .. => true
  | _ => false

variable (s : Net)

def Net.claims (c : Slot) : ℕ := (s.history c).countP ConnEvent.isClaim

def syncookieShouldActivate (t : LockBox) : Bool :=
  lockboxCapacity * syncookieLoadNum ≤ lockboxActiveCount t * syncookieLoadDen

def sendCookieSynAck (o : Office) (src dst : Ip4) (g : Segment) (cookieIsn : Word) : Office :=
  match rolodexLookup o.rolodex src with
  | none => o
  | some destMac =>
    (bailiffTransmit o (tcpFrame destMac o.frontdesk.mac dst src
      ⟨g.dstPort, g.srcPort, cookieIsn, g.seq + 1, flagSyn ||| flagAck,
        BitVec.ofNat 16 lockboxMaxBuffered, []⟩)).2

/-- `ensure_secret`, which every cookie computation calls first. -/
def ensureSecret (o : Office) : Office :=
  let r := SynCookie.ensureSecret o.ticks o.syncookie o.lottery
  { o with syncookie := r.1, lottery := r.2 }

section

variable (g : Segment)

def Segment.tuple (src : Ip4) : Tuple := ⟨g.dstPort, src, g.srcPort, 6⟩

variable (src dst : Ip4)

/-- The SYN branch of `conversation_handle`. -/
def Net.handleSyn : Net :=
  let seen := sentryObserve s.office.ticks s.office.sentry s.office.guestlist src g.dstPort
  let s := { s with office := { s.office with sentry := seen.2.1, guestlist := seen.2.2 } }
  if seen.1 then s
  else if syncookieShouldActivate s.lockbox then
    let o := ensureSecret s.office
    let cookieIsn :=
      syncookieGenerate o.ticks o.syncookie.secret src g.srcPort dst g.dstPort
    { s with office := sendCookieSynAck o src dst g cookieIsn }
  else match lockboxClaim s.lockbox (g.tuple src) with
    | .error _ => s
    | .ok (c, _) =>
      let draw := lotteryDrawIsn s.office.ticks s.office.lottery dst g.dstPort src g.srcPort
      let o := { s.office with lottery := draw.2 }
      let me : Identity := ⟨o.frontdesk.mac, dst⟩
      let k := rapportOnSyn ((s.conns c).claim (g.tuple src)) g.seq draw.1
      { s.act c (.syn (g.tuple src) g.seq draw.1 o me) with
        office := (presentDispatched (conversationDispatchSynAck o k me)).2.1 }

/-- A segment without SYN for which there is no connection: it may acknowledge a cookie. -/
def Net.handleCookie : Net :=
  if !g.isAck then s
  else
    let o := ensureSecret s.office
    let s := { s with office := o }
    if !syncookieValidate o.ticks o.syncookie.secret src g.srcPort dst g.dstPort g.ack then s
    else match lockboxClaim s.lockbox (g.tuple src) with
      | .error _ => s
      | .ok (c, _) =>
        let k := rapportOnAck o.ticks
          (rapportOnSyn ((s.conns c).claim (g.tuple src)) (g.seq - 1) (g.ack - 1)) g.ack
        (s.act c (.cookie (g.tuple src) o.ticks g)).resend (conversationReceive o.ticks k g).1

def Net.handleSegment (c : Slot) (g : Segment) : Net :=
  (s.act c (.segment s.office.ticks g)).resend (conversationReceive s.office.ticks (s.conns c) g).1

/-- `conversation_handle` once the segment has passed the checks, the Menu and the listener. -/
def Net.handle : Net :=
  match lockboxFindConnection s.lockbox (g.tuple src) with
  | none => if g.syn then s.handleSyn g src dst else s.handleCookie g src dst
  | some c =>
    if (s.conns c).rapport.status = .synSent then s.act c (.answer g)
    else if g.syn then s.handleSyn g src dst
    else s.handleSegment c g

end

/-- The segment is well formed, its port is on the Menu, and a slot in use has it. -/
def Net.admits (p : Packet) (src dst : Ip4) : Bool :=
  conversationCheck p.bytes src dst = .accept &&
    menuIsOpen s.office.menu (decode p.bytes).dstPort 6 &&
    (lockboxFindListener s.lockbox (decode p.bytes).dstPort 6).isSome

def conversationHandle (p : Packet) (src dst : Ip4) : Net :=
  if s.admits p src dst then s.handle (decode p.bytes) src dst else s

def ephemeralPortLow : Port := 49152
def ephemeralPortHigh : Port := 65535

def pickPort (t : LockBox) (protocol : Byte) (low high : Port) : ℕ → Port → Option Port × Port
  | 0, next => (none, next)
  | n + 1, next =>
    let next' := if high ≤ next then low else next + 1
    if (lockboxFindListener t next protocol).isNone then (some next, next')
    else pickPort t protocol low high n next'

def pickEphemeralPort : Option Port × Net :=
  let r := pickPort s.lockbox 6 ephemeralPortLow ephemeralPortHigh
    (ephemeralPortHigh - ephemeralPortLow).toNat s.nextEphemeral
  (r.1, { s with nextEphemeral := r.2 })

def switchboardConnect (destIp : Ip4) (destPort : Port) (me : Identity) : Option Slot × Net :=
  match pickEphemeralPort s with
  | (none, s) => (none, s)
  | (some localPort, s) =>
    let u : Tuple := ⟨localPort, destIp, destPort, 6⟩
    match lockboxClaim s.lockbox u with
    | .error _ => (none, s)
    | .ok (c, _) =>
      let draw := lotteryDrawIsn s.office.ticks s.office.lottery me.ip localPort destIp destPort
      let o := { s.office with lottery := draw.2 }
      let k := rapportInitiateConnect ((s.conns c).claim u) draw.1
      (some c, { s.act c (.connect u draw.1 o me) with
        office := (presentDispatched (conversationDispatchSyn o k draw.1 me)).2.1 })

def switchboardBind (port : Port) (protocol : Byte) : Bool × Net :=
  match lockboxListen s.lockbox port protocol with
  | .error _ => (false, s)
  | .ok (c, _) => (true, s.act c (.listen port protocol))

/-- The first established connection on the port whose generation was not handed out yet. -/
def switchboardAccept (port : Port) : Option Slot × Net :=
  match Fin.find? fun i => (s.conns i).box.inUse && (s.conns i).box.localPort = port &&
      (s.conns i).box.protocol = 6 &&
      (s.conns i).acceptedGeneration ≠ (s.conns i).box.generation &&
      (s.conns i).rapport.status = .established with
  | none => (none, s)
  | some c => (some c, s.act c .accept)

end Aevros
