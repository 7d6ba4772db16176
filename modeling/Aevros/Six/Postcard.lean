import Aevros.Library.Ring
import Aevros.Office.Transmit
import Aevros.Six.Tables
import Aevros.Wire.Datagram

/-! # Postcard6 and Postbox6: UDP over IPv6

`postcard6_dispatch` builds the frame of a datagram. `postcard6_handle` queues a received one for
the slot that listens on its port, from which `postbox6_read` takes it.
-/

namespace Aevros

open List

abbrev postbox6MaxPending : ℕ := 8
def postbox6MaxDatagram : ℕ := 512

structure Envelope6 where
  srcIp : Ip6 := fun _ => 0
  srcPort : Port := 0
  data : List Byte := []
  deriving DecidableEq

/-- The queue of one slot: the envelopes from `head` on are pending, the next goes to `tail`. -/
structure Postbox6 where
  queue : ℕ → Envelope6 := fun _ => {}
  head : ℕ := 0
  tail : ℕ := 0
  pending : ℕ := 0
  head_lt : head < postbox6MaxPending := by decide
  tail_eq : tail = (head + pending) % postbox6MaxPending := by decide
  pending_le : pending ≤ postbox6MaxPending := by decide

/-- Copy `len` bytes from the pointer `data` into the queue. -/
def postbox6Deposit (b : Postbox6) (srcIp : Ip6) (srcPort : Port) (data : ℕ → Byte) (len : ℕ) :
    Bool × Postbox6 :=
  if postbox6MaxDatagram < len then (false, b)
  else if h : postbox6MaxPending ≤ b.pending then (false, b)
  else (true, {
    queue := Function.update b.queue b.tail ⟨srcIp, srcPort, (range len).map data⟩
    head := b.head
    tail := (b.tail + 1) % postbox6MaxPending
    pending := b.pending + 1
    head_lt := b.head_lt
    tail_eq := by rw [b.tail_eq, Nat.mod_add_mod, Nat.add_assoc]
    pending_le := Nat.lt_of_not_le h })

/-- The first pending datagram, cut to `maxLen` bytes; `none` if there is none. -/
def postbox6Read (b : Postbox6) (maxLen : ℕ) : Option Envelope6 × Postbox6 :=
  if h : b.pending = 0 then (none, b)
  else
    let e := b.queue b.head
    let n := if maxLen < e.data.length then maxLen else e.data.length
    (some { e with data := e.data.take n }, { b with
      head := (b.head + 1) % postbox6MaxPending
      pending := b.pending - 1
      head_lt := Nat.mod_lt _ (by decide)
      tail_eq := by rw [b.tail_eq, Nat.mod_add_mod]; congr 1; omega
      pending_le := (Nat.sub_le ..).trans b.pending_le })

namespace Postbox6

def waiting (b : Postbox6) : List Envelope6 :=
  (Ring.read postbox6MaxPending b.queue b.head b.pending).1

@[simp] theorem length_waiting (b : Postbox6) : b.waiting.length = b.pending :=
  Ring.length_read ..

variable {b : Postbox6} {src : Ip6} {port : Port} {data : ℕ → Byte} {len : ℕ}

theorem waiting_deposit (hlen : len ≤ postbox6MaxDatagram)
    (hroom : b.pending < postbox6MaxPending) :
    (postbox6Deposit b src port data len).2.waiting =
      b.waiting ++ [⟨src, port, (range len).map data⟩] := by
  unfold postbox6Deposit
  rw [if_neg (Nat.not_lt.mpr hlen), dif_neg (Nat.not_le.mpr hroom), waiting]
  dsimp only
  rw [b.tail_eq]
  exact Ring.read_write b.queue b.head_lt [⟨src, port, (range len).map data⟩] hroom

theorem waiting_of_pos (h : b.pending ≠ 0) : b.waiting = b.queue b.head ::
    (Ring.read postbox6MaxPending b.queue ((b.head + 1) % postbox6MaxPending)
      (b.pending - 1)).1 := by
  have hn : b.pending = b.pending - 1 + 1 := by omega
  rw [waiting]
  conv_lhs => rw [hn]
  rfl

theorem waiting_of_zero (h : b.pending = 0) : b.waiting = [] :=
  eq_nil_of_length_eq_zero (b.length_waiting.trans h)

variable (b : Postbox6)

theorem read_fst (maxLen : ℕ) : (postbox6Read b maxLen).1 =
    b.waiting.head?.map fun e => { e with data := e.data.take maxLen } := by
  unfold postbox6Read
  split_ifs with hp
  · rw [waiting_of_zero hp]
    rfl
  · rw [waiting_of_pos hp, head?_cons, Option.map_some]
    dsimp only
    split_ifs with hlt
    · rfl
    · rw [take_length, take_of_length_le (Nat.le_of_not_lt hlt)]

theorem waiting_read (maxLen : ℕ) : (postbox6Read b maxLen).2.waiting = b.waiting.tail := by
  unfold postbox6Read
  split_ifs with hp
  · rw [waiting_of_zero hp]
    rfl
  · rw [waiting_of_pos hp]
    rfl

def afterReads (sizes : List ℕ) : Postbox6 :=
  sizes.foldl (fun b maxLen => (postbox6Read b maxLen).2) b

theorem waiting_afterReads (sizes : List ℕ) :
    (b.afterReads sizes).waiting = b.waiting.drop sizes.length := by
  induction sizes generalizing b with
  | nil => rfl
  | cons m sizes ih =>
    rw [afterReads, foldl_cons, ← afterReads, ih, waiting_read, drop_tail]
    rfl

end Postbox6

def postcard6MaxPayload : ℕ := 1432

inductive Udp6Verdict
  | accept
  | rejectTooShort
  | rejectLengthMismatch
  | rejectBadChecksum
  deriving DecidableEq

def udp6Pseudo (src dst : Ip6) (len : ℕ) : ℕ :=
  sumWords src.bytes + sumWords dst.bytes + len + 17

def udp6Checksum (src dst : Ip6) (udp : List Byte) : Port :=
  checksumField (udp6Pseudo src dst udp.length + sumWords udp)

/-- A zero checksum field is not allowed over IPv6. -/
def postcard6Check (p : List Byte) (src dst : Ip6) : Udp6Verdict :=
  if p.length < udpHeaderLen then .rejectTooShort
  else
    let declaredLen := (be16 p 4).toNat
    if declaredLen < udpHeaderLen ∨ p.length < declaredLen then .rejectLengthMismatch
    else if be16 p 6 = 0 then .rejectBadChecksum
    else if udp6Checksum src dst (p.take declaredLen) ≠ 0 then .rejectBadChecksum
    else .accept

/-- What receiving a datagram reads and writes. -/
structure Mailroom6 where
  menu : Menu := fun _ => {}
  lockbox : LockBox6 := fun _ => {}
  postboxes : Slot6 → Postbox6 := fun _ => {}
  accepted : Word := 0
  rejected : Word := 0

/-- The data of the datagram, where `beyond i` is what memory holds past its end. -/
def udp6Data (p : List Byte) (beyond : ℕ → Byte) (i : ℕ) : Byte :=
  p.getD (udpHeaderLen + i) (beyond (udpHeaderLen + i))

/-- The answer is whether the sender is told that the port is unreachable. -/
def postcard6Handle (s : Mailroom6) (p : List Byte) (beyond : ℕ → Byte) (src dst : Ip6) :
    Bool × Mailroom6 :=
  if postcard6Check p src dst ≠ .accept then (false, { s with rejected := s.rejected + 1 })
  else
    let s := { s with accepted := s.accepted + 1 }
    let dstPort := be16 p 2
    if !menuIsOpen s.menu dstPort 17 then (false, s)
    else match lockbox6FindListener s.lockbox dstPort 17 with
      | none => (true, s)
      | some slot =>
        -- the declared length, which counts the header as well
        let udpPayloadLen := (be16 p 4).toNat
        let r := postbox6Deposit (s.postboxes slot) src (be16 p 0) (udp6Data p beyond) udpPayloadLen
        (false, { s with postboxes := Function.update s.postboxes slot r.2 })

/-- The hardware address of a multicast group, or what Rolodex6 knows. -/
def destMac6 (r : Rolodex6) (destIp : Ip6) : Option Mac :=
  let ip := destIp.bytes
  if ip.getD 0 0 = 0xFF then
    some ⟨0x33, 0x33, ip.getD 12 0, ip.getD 13 0, ip.getD 14 0, ip.getD 15 0⟩
  else rolodex6Lookup r destIp

def udp6Frame (destMac ourMac : Mac) (ourIp destIp : Ip6) (srcPort destPort : Port)
    (data : List Byte) : Frame :=
  let udpLen := udpHeaderLen + data.length
  destMac.bytes ++ ourMac.bytes ++ [0x86, 0xDD] ++
    ([0x60, 0, 0, 0] ++ bytes16 (BitVec.ofNat 16 udpLen) ++ [17, 64] ++ ourIp.bytes ++
      destIp.bytes) ++
    datagram (udp6Pseudo ourIp destIp udpLen) srcPort destPort data

def postcard6Frame (r : Rolodex6) (destIp : Ip6) (destPort srcPort : Port) (ourMac : Mac)
    (ourIp : Ip6) (data : List Byte) : Option Frame :=
  if postcard6MaxPayload < data.length then none
  else (destMac6 r destIp).map fun destMac =>
    udp6Frame destMac ourMac ourIp destIp srcPort destPort data

def postcard6Dispatch (o : Office) (r : Rolodex6) (destIp : Ip6) (destPort srcPort : Port)
    (ourMac : Mac) (ourIp : Ip6) (data : List Byte) : Bool × Office :=
  match postcard6Frame r destIp destPort srcPort ourMac ourIp data with
  | none => (false, o)
  | some frame => bailiffTransmit o frame

variable {src dst : Ip6} {srcPort dstPort : Port} {data : List Byte}

theorem udp6Pseudo_lt {len : ℕ} (h : len < 65536) : udp6Pseudo src dst len < 2 ^ 30 := by
  have hsrc := sumWords_le src.bytes
  have hdst := sumWords_le dst.bytes
  rw [Ip6.length_bytes] at hsrc hdst
  unfold udp6Pseudo
  omega

theorem postcard6Check_datagram (h : data.length < 16000) :
    postcard6Check (datagram (udp6Pseudo src dst (udpHeaderLen + data.length)) srcPort dstPort
      data) src dst = .accept := by
  have hok : udp6Checksum src dst (datagram (udp6Pseudo src dst (udpHeaderLen + data.length))
      srcPort dstPort data) = 0 := by
    rw [udp6Checksum, length_datagram, checksumField, foldSum_datagram
      (by unfold udp6Pseudo; omega) (udp6Pseudo_lt (by unfold udpHeaderLen; omega)) h]
    rfl
  unfold postcard6Check
  rw [be16_len_datagram (by omega), length_datagram, if_neg (by omega), if_neg (by omega),
    if_neg be16_checksum_datagram, take_of_length_le length_datagram.le, hok,
    if_neg (not_not.mpr rfl)]

end Aevros
