import Aevros.Wire.Segment

/-! # Landlord6: the replies to the DHCPv6 client

The options of a reply are applied before it is known whether the reply is for this client.
-/

namespace Aevros

open List

def dhcpv6MsgReply : Byte := 7
def optClientid : Port := 1
def optDnsServers : Port := 23
def optInfoRefreshTime : Port := 32
def landlord6MaxDnsServers : ℕ := 2
def landlord6DefaultRefreshSec : Word := 86400

inductive Landlord6State
  | idle
  | infoRequesting
  | bound
  deriving DecidableEq

/-- `dnsServers` are the first `dns_server_count` entries of the table. -/
structure Landlord6 where
  state : Landlord6State := .idle
  duid : List Byte := replicate 10 0
  xid : Word := 0
  dnsServers : List (List Byte) := []
  refreshAtTick : Word := 0

section

variable (l : Landlord6)

def landlord6GetDnsServers : List (List Byte) := l.dnsServers

def options6 (bytes : List Byte) : List (Port × List Byte) :=
  let n := (be16 bytes 2).toNat
  if bytes.length < 4 + n then []
  else (be16 bytes 0, (bytes.drop 4).take n) :: options6 (bytes.drop (4 + n))
termination_by bytes.length
decreasing_by
  rw [length_drop]
  omega

structure Parsed6 where
  servers : List (List Byte) := []
  refreshSec : Word := landlord6DefaultRefreshSec
  sawOurClientId : Bool := false

def serversOf (v : List Byte) : List (List Byte) :=
  (range (v.length / 16)).map fun k => (v.drop (16 * k)).take 16

def takeOption6 (duid : List Byte) (p : Parsed6) (o : Port × List Byte) : Parsed6 :=
  if o.1 = optClientid then { p with sawOurClientId := p.sawOurClientId || o.2 = duid }
  else if o.1 = optDnsServers then
    { p with servers := (p.servers ++ serversOf o.2).take landlord6MaxDnsServers }
  else if o.1 = optInfoRefreshTime ∧ o.2.length = 4 then { p with refreshSec := be32 o.2 0 }
  else p

/-- The packet is a reply to the request that was sent last. -/
def isReply6 (packet : List Byte) : Bool :=
  4 ≤ packet.length ∧ packet.getD 0 0 = dhcpv6MsgReply ∧
    (0 : Byte) ++ packet.getD 1 0 ++ packet.getD 2 0 ++ packet.getD 3 0 = l.xid

def parseReply (now : Word) (packet : List Byte) : Landlord6 :=
  if !isReply6 l packet then l
  else
    let p := (options6 (packet.drop 4)).foldl (takeOption6 l.duid) {}
    if !p.sawOurClientId then { l with dnsServers := p.servers }
    else
      { l with
        dnsServers := p.servers
        state := .bound
        refreshAtTick := now + p.refreshSec * 100 }

/-- The DNS servers that the options name, as far as they are remembered. -/
def namedServers (os : List (Port × List Byte)) : List (List Byte) :=
  ((os.filter (·.1 = optDnsServers)).flatMap fun o => serversOf o.2).take landlord6MaxDnsServers

def accepts6 (packet : List Byte) : Bool :=
  isReply6 l packet ∧ (optClientid, l.duid) ∈ options6 (packet.drop 4)

end

theorem namedServers_concat (os : List (Port × List Byte)) (o : Port × List Byte) :
    namedServers (os ++ [o]) = if o.1 = optDnsServers then
      (namedServers os ++ serversOf o.2).take landlord6MaxDnsServers else namedServers os := by
  unfold namedServers
  rw [filter_append, flatMap_append]
  split_ifs with ho
  · simp only [ho, decide_true, filter_cons_of_pos, filter_nil, flatMap_cons,
      flatMap_nil, append_nil, take_append, take_take, min_self,
      length_take]
    congr 2
    omega
  · simp [ho]

theorem foldl_takeOption6 (duid : List Byte) (os : List (Port × List Byte)) :
    (os.foldl (takeOption6 duid) {}).servers = namedServers os ∧
      ((os.foldl (takeOption6 duid) {}).sawOurClientId = true ↔ (optClientid, duid) ∈ os) := by
  induction os using reverseRecOn with
  | nil => simp [namedServers]
  | append_singleton os o ih =>
    obtain ⟨hservers, hsaw⟩ := ih
    have hcodes : optClientid ≠ optDnsServers := by decide
    rw [foldl_concat, namedServers_concat, mem_append, mem_singleton, takeOption6]
    obtain ⟨code, v⟩ := o
    split_ifs <;> grind

/-- A refused reply changes nothing exactly if it is no reply to us or names the known servers. -/
theorem refused_changes_nothing_iff {l : Landlord6} {now : Word} {packet : List Byte}
    (h : accepts6 l packet = false) :
    landlord6GetDnsServers (parseReply l now packet) = landlord6GetDnsServers l ∧
      (parseReply l now packet).state = l.state ↔
        (isReply6 l packet = true → namedServers (options6 (packet.drop 4)) = l.dnsServers) := by
  obtain ⟨hservers, hsaw⟩ := foldl_takeOption6 l.duid (options6 (packet.drop 4))
  unfold accepts6 at h
  unfold parseReply landlord6GetDnsServers
  cases hreply : isReply6 l packet with
  | false => simp
  | true => simp_all

def informedClient : Landlord6 := { state := .infoRequesting, dnsServers := [replicate 16 1] }

/-- A reply with the transaction id of the client that names the server it knows, and no client. -/
def sameServer : List Byte := [7, 0, 0, 0, 0, 23, 0, 16] ++ replicate 16 1

theorem same_server_changes_nothing : isReply6 informedClient sameServer = true ∧
    landlord6GetDnsServers (parseReply informedClient 0 sameServer) = [replicate 16 1] ∧
      (parseReply informedClient 0 sameServer).state = .infoRequesting := by
  have hoptions : options6 (sameServer.drop 4) = [(optDnsServers, replicate 16 1)] := by
    rw [options6, options6]
    decide
  have hrefused : accepts6 informedClient sameServer = false := by
    rw [accepts6, hoptions]
    decide
  refine ⟨by decide, (refused_changes_nothing_iff hrefused).mpr fun _ => ?_⟩
  rw [hoptions]
  decide

theorem reply_for_other_clears_servers : accepts6 informedClient [7, 0, 0, 0] = false ∧
    landlord6GetDnsServers (parseReply informedClient 0 [7, 0, 0, 0]) = [] := by
  have hnone : options6 ([7, 0, 0, 0].drop 4) = [] := by
    rw [options6]
    rfl
  simp only [accepts6, parseReply, hnone]
  decide

end Aevros
