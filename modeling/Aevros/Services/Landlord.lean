import Aevros.Library.Tagged
import Aevros.Observe.Observer

/-! # Landlord: the DHCP client

A client discovers servers, requests the address that it is offered and is bound to it until half
of the lease is over. The options of a reply are read by a program over its bytes.
-/

namespace Aevros

open Reads Observe List

def dhcpFixedLen : ℕ := 240
def pitHz : Word := 100
def dhcpRetryTicks : Word := 5 * pitHz

inductive LandlordState
  | init
  | discovering
  | requesting
  | bound
  deriving DecidableEq

structure Terms where
  offeredIp : Ip4 := .zero
  serverIp : Ip4 := .zero
  subnetMask : Ip4 := ⟨255, 255, 255, 0⟩
  routerIp : Ip4 := .zero
  dnsServerIp : Ip4 := .zero
  leaseSeconds : Word := 0
  deriving DecidableEq

structure Landlord where
  state : LandlordState := .init
  xid : Word := 0
  lastActionTick : Word := 0
  terms : Terms := {}
  leaseStartTick : Word := 0

inductive Deed
  | sendUdp (packet : List Byte)
  | setIp (ip : Ip4)
  | addRoute (network mask gateway : Ip4)
  | setDefaultGateway (gateway : Ip4)

def buildHeader (xid : Word) (ourMac : Mac) (claddr : Ip4) : List Byte :=
  [1, 1, 6, 0] ++ bytes32 xid ++ [0, 0, 0x80, 0] ++ claddr.bytes ++ replicate 12 0 ++
    ourMac.bytes ++ replicate 202 0 ++ [99, 130, 83, 99]

def discoverOptions : List Byte := [53, 1, 1, 55, 3, 1, 3, 6, 255]

def requestOptions (t : Terms) : List Byte :=
  [53, 1, 3, 50, 4] ++ t.offeredIp.bytes ++ [54] ++ t.serverIp.bytes ++ [255]

namespace Landlord

/-- `send_discover` at the tick `now`, where `draw` is the new transaction id. -/
def sendDiscover (l : Landlord) (ourMac : Mac) (now draw : Word) : Landlord × List Deed :=
  ({ l with xid := draw, state := .discovering, lastActionTick := now },
    [.sendUdp (buildHeader draw ourMac .zero ++ discoverOptions)])

def sendRequest (l : Landlord) (ourMac : Mac) (now : Word) : Landlord × List Deed :=
  ({ l with state := .requesting, lastActionTick := now },
    [.sendUdp (buildHeader l.xid ourMac .zero ++ requestOptions l.terms)])

end Landlord

/-- The `switch` over the option code, with the value of `optLen` bytes at `i`. -/
def parseOption (opt : Byte) (optLen i : ℕ) (msg : Byte) (t : Terms) : Reads Byte (Byte × Terms) :=
  if opt = 53 ∧ 1 ≤ optLen then return (← cell i, t)
  else if opt = 1 ∧ 4 ≤ optLen then return (msg, { t with subnetMask := ← readIp i })
  else if opt = 3 ∧ 4 ≤ optLen then return (msg, { t with routerIp := ← readIp i })
  else if opt = 6 ∧ 4 ≤ optLen then return (msg, { t with dnsServerIp := ← readIp i })
  else if opt = 54 ∧ 4 ≤ optLen then return (msg, { t with serverIp := ← readIp i })
  else if opt = 51 ∧ 4 ≤ optLen then return (msg, { t with leaseSeconds := (← readIp i).word })
  else return (msg, t)

def parseFrom (len i : ℕ) (msg : Byte) (t : Terms) : Reads Byte (Byte × Terms) :=
  if i < len then do
    let opt ← cell i
    if opt = 255 ∨ len ≤ i + 1 then return (msg, t)
    else
      let optLen ← cell (i + 1)
      if len < i + 2 + optLen.toNat then return (msg, t)
      else
        let s ← parseOption opt optLen.toNat (i + 2) msg t
        parseFrom len (i + 2 + optLen.toNat) s.1 s.2
  else return (msg, t)
termination_by len - i

/-- The message type, or zero, and the terms after the reply. -/
def parseOptions (len : ℕ) (t : Terms) : Reads Byte (Byte × Terms) :=
  if len < dhcpFixedLen + 4 then return (0, t)
  else do parseFrom len dhcpFixedLen 0 { t with offeredIp := ← readIp 16 }

namespace Landlord

variable (l : Landlord)

def applyLease (now : Word) : Landlord × List Deed :=
  let t := l.terms
  let network := ⟨t.offeredIp.a &&& t.subnetMask.a, t.offeredIp.b &&& t.subnetMask.b,
    t.offeredIp.c &&& t.subnetMask.c, t.offeredIp.d &&& t.subnetMask.d⟩
  ({ l with
      terms := { t with leaseSeconds := if t.leaseSeconds = 0 then 3600 else t.leaseSeconds }
      leaseStartTick := now
      state := .bound },
    [.setIp t.offeredIp, .addRoute network t.subnetMask .zero] ++
      if t.routerIp ≠ .zero then [.setDefaultGateway t.routerIp] else [])

variable (ourMac : Mac) (packet : List Byte)

def replyIsOurs : Bool :=
  dhcpFixedLen + 4 ≤ packet.length ∧ packet.getD 0 0 = 2 ∧ be32 packet 4 = l.xid ∧
    Mac.read packet 28 = ourMac

def renewAt : Word := l.leaseStartTick + l.terms.leaseSeconds * pitHz * 1 / 2

/-- `landlord_tick` after the packet has been seen to. -/
def keepTime (now draw : Word) : Landlord × List Deed :=
  if (l.state = .discovering ∨ l.state = .requesting) ∧ dhcpRetryTicks ≤ now - l.lastActionTick then
    l.sendDiscover ourMac now draw
  else if l.state = .bound ∧ l.renewAt ≤ now then l.sendDiscover ourMac now draw
  else (l, [])

def heed : Byte × Terms :=
  (parseOptions packet.length l.terms).run (packet.getD · 0)

/-- `landlord_tick` at the tick `now`, with the datagram that was waiting; an empty one is none. -/
def landlordTick (now draw : Word) : Landlord × List Deed :=
  if l.replyIsOurs ourMac packet then
    let msgType := (l.heed packet).1
    let l := { l with terms := (l.heed packet).2 }
    if l.state = .discovering ∧ msgType = 2 then l.sendRequest ourMac now
    else if l.state = .requesting ∧ msgType = 5 then l.applyLease now
    else if l.state = .requesting ∧ msgType = 6 then l.sendDiscover ourMac now draw
    else l.keepTime ourMac now draw
  else l.keepTime ourMac now draw

end Landlord

/-- The terms with the values that options give, where `value` finds that of a code. -/
def Terms.told (s : Byte × Terms) (value : Byte → Option (List Byte)) : Byte × Terms :=
  let ip (code : Byte) (old : Ip4) := (value code).elim old (Ip4.read · 0)
  ((value 53).elim s.1 (·.getD 0 0),
    { offeredIp := s.2.offeredIp
      serverIp := ip 54 s.2.serverIp
      subnetMask := ip 1 s.2.subnetMask
      routerIp := ip 3 s.2.routerIp
      dnsServerIp := ip 6 s.2.dnsServerIp
      leaseSeconds := (value 51).elim s.2.leaseSeconds fun v => (Ip4.read v 0).word })

def leastLen (code : Byte) : ℕ := if code = 53 then 1 else 4

def optionIn (bytes : List Byte) (code : Byte) : Option (List Byte) :=
  Tagged.lastOf code (leastLen code) (Tagged.scan bytes)

variable {packet : List Byte} {opt msg : Byte} {n i len : ℕ} {t : Terms}

theorem told_congr {s : Byte × Terms} {f g : Byte → Option (List Byte)}
    (h : ∀ code ∈ ([53, 54, 1, 3, 6, 51] : List Byte), f code = g code) :
    Terms.told s f = Terms.told s g := by
  simp only [forall_mem_cons] at h
  simp only [Terms.told, h]

theorem told_told (s : Byte × Terms) (f g : Byte → Option (List Byte)) :
    Terms.told (Terms.told s f) g = Terms.told s fun code => (g code).or (f code) := by
  have helim : ∀ {β : Type} {k : List Byte → β} (x y : Option (List Byte)) (old : β),
      x.elim (y.elim old k) k = (x.or y).elim old k := by
    intro β k x y old
    cases x <;> rfl
  simp only [Terms.told, helim]

theorem parseOption_eq_told (opt msg : Byte) (t : Terms) (v : List Byte) :
    (parseOption opt v.length 0 msg t).run (v.getD · 0) =
      Terms.told (msg, t) fun code => if opt = code ∧ leastLen code ≤ v.length then some v
        else none := by
  unfold parseOption leastLen
  split_ifs with h1 h2 h3 h4 h5 h6
  · simp [h1, Terms.told]
  · simp [h2, Terms.told, readIp, Ip4.read]
  · simp [h3, Terms.told, readIp, Ip4.read]
  · simp [h4, Terms.told, readIp, Ip4.read]
  · simp [h5, Terms.told, readIp, Ip4.read]
  · simp [h6, Terms.told, readIp, Ip4.read]
  · refine Eq.symm (told_congr (g := fun _ => none) ?_)
    simp only [forall_mem_cons]
    exact ⟨if_neg h1, if_neg h5, if_neg h2, if_neg h3, if_neg h4, if_neg h6, by simp⟩

theorem within_parseOption {d : ℕ → Byte} (h : i + n ≤ len) :
    Within d len (parseOption opt n i msg t) := by
  unfold parseOption
  split_ifs with h1 h2 h3 h4 h5 h6 <;> simp [readIp] <;> omega

theorem run_parseOption : (parseOption opt n i msg t).run (packet.getD · 0) =
    (parseOption opt n 0 msg t).run (((packet.drop i).take n).getD · 0) := by
  unfold parseOption
  split_ifs with h1 h2 h3 h4 h5 h6 <;> simp [readIp, getElem?_take] <;> grind

theorem parseFrom_spec (packet : List Byte) (i : ℕ) (msg : Byte) (t : Terms) :
    Within (packet.getD · 0) packet.length (parseFrom packet.length i msg t) ∧
      (parseFrom packet.length i msg t).run (packet.getD · 0) =
        Terms.told (msg, t) (optionIn (packet.drop i)) := by
  have hget : ∀ j (hj : j < packet.length), packet.getD j 0 = packet[j] := by
    intro j hj
    simp [hj]
  induction hm : packet.length - i using Nat.strong_induction_on generalizing i msg t with
  | _ m ih =>
    have hnil : ∀ {bytes}, Tagged.scan bytes = [] →
        (msg, t) = Terms.told (msg, t) (optionIn bytes) := by
      intro bytes hscan
      simp [optionIn, hscan, Tagged.lastOf, Terms.told]
    rw [parseFrom]
    by_cases hi : i < packet.length
    swap
    · rw [if_neg hi, drop_eq_nil_of_le (by omega)]
      exact ⟨within_pure _, hnil (by simp [Tagged.scan])⟩
    rw [if_pos hi, drop_eq_getElem_cons hi]
    simp only [within_bind, within_cell, run_bind, run_cell, hget i hi]
    by_cases hend : packet[i] = 255 ∨ packet.length ≤ i + 1
    · rw [if_pos hend]
      refine ⟨⟨hi, within_pure _⟩, hnil ?_⟩
      obtain hend | hend := hend
      · cases packet.drop (i + 1) <;> simp [Tagged.scan, hend]
      · simp [Tagged.scan, drop_eq_nil_of_le hend]
    have hi' : i + 1 < packet.length := by omega
    rw [if_neg hend, drop_eq_getElem_cons hi']
    simp only [within_bind, within_cell, run_bind, run_cell, hget (i + 1) hi']
    set n := packet[i + 1].toNat with hn
    by_cases hfit : packet.length < i + 2 + n
    · rw [if_pos hfit]
      refine ⟨⟨hi, hi', within_pure _⟩, hnil ?_⟩
      rw [Tagged.scan, length_drop, if_pos (.inr (by omega))]
    have hlen : ((packet.drop (i + 2)).take n).length = n := by
      rw [length_take, length_drop]
      omega
    have hscan : Tagged.scan (packet[i] :: packet[i + 1] :: packet.drop (i + 2)) =
        (packet[i], (packet.drop (i + 2)).take n) :: Tagged.scan (packet.drop (i + 2 + n)) := by
      rw [Tagged.scan, length_drop, drop_drop,
        if_neg (not_or.mpr ⟨fun h => hend (.inl h), by omega⟩)]
    have hhead := parseOption_eq_told packet[i] msg t ((packet.drop (i + 2)).take n)
    rw [hlen, ← run_parseOption] at hhead
    obtain ⟨hin, hrun⟩ := ih (packet.length - (i + 2 + n)) (by omega) (i + 2 + n)
      ((parseOption packet[i] n (i + 2) msg t).run (packet.getD · 0)).1
      ((parseOption packet[i] n (i + 2) msg t).run (packet.getD · 0)).2 rfl
    rw [if_neg hfit, within_bind, run_bind]
    refine ⟨⟨hi, hi', within_parseOption (by omega), hin⟩, hrun.trans ?_⟩
    rw [hhead, told_told]
    refine congrArg (Terms.told (msg, t)) (funext fun code => ?_)
    simp only [optionIn]
    rw [hscan, Tagged.lastOf_cons, hlen]

theorem parseOptions_spec (packet : List Byte) (t : Terms) :
    Within (packet.getD · 0) packet.length (parseOptions packet.length t) ∧
      (parseOptions packet.length t).run (packet.getD · 0) =
        if packet.length < dhcpFixedLen + 4 then (0, t)
        else Terms.told (0, { t with offeredIp := Ip4.read packet 16 })
          (optionIn (packet.drop dhcpFixedLen)) := by
  unfold parseOptions
  split_ifs with h
  · simp
  obtain ⟨hin, hrun⟩ := parseFrom_spec packet dhcpFixedLen 0
    { t with offeredIp := Ip4.read packet 16 }
  unfold dhcpFixedLen at h
  constructor
  · rw [within_bind]
    refine ⟨?_, hin⟩
    simp [readIp]
    omega
  · exact hrun

end Aevros
