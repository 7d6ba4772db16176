import Mathlib.Tactic

/-! # Bytes, addresses and TCP segments

Frames are lists of bytes in wire order. Here the fields of the IPv4 and TCP headers are read and
written, and a received TCP segment is checked and decoded.
-/

namespace Aevros

open List BitVec

abbrev Byte := BitVec 8
abbrev Port := BitVec 16
abbrev Word := BitVec 32

abbrev Frame := List Byte

structure Ip4 where
  a : Byte := 0
  b : Byte := 0
  c : Byte := 0
  d : Byte := 0
  deriving DecidableEq

namespace Ip4

def zero : Ip4 := ⟨0, 0, 0, 0⟩

def bytes (ip : Ip4) : List Byte := [ip.a, ip.b, ip.c, ip.d]

def word (ip : Ip4) : Word := ip.a ++ ip.b ++ ip.c ++ ip.d

end Ip4

abbrev Ip6 := Fin 16 → Byte

structure Mac where
  m₀ : Byte := 0
  m₁ : Byte := 0
  m₂ : Byte := 0
  m₃ : Byte := 0
  m₄ : Byte := 0
  m₅ : Byte := 0
  deriving DecidableEq

def Mac.bytes (m : Mac) : List Byte := [m.m₀, m.m₁, m.m₂, m.m₃, m.m₄, m.m₅]

@[simp] theorem Mac.length_bytes (m : Mac) : m.bytes.length = 6 := rfl

/-- Bytes handed to a protocol handler with their `uint16_t` length. -/
structure Packet where
  bytes : List Byte
  length_lt : bytes.length < 65536

section

variable (p : List Byte)

def be16 (i : ℕ) : Port := p.getD i 0 ++ p.getD (i + 1) 0

def Ip4.read (i : ℕ) : Ip4 :=
  ⟨p.getD i 0, p.getD (i + 1) 0, p.getD (i + 2) 0, p.getD (i + 3) 0⟩

def Mac.read (i : ℕ) : Mac :=
  ⟨p.getD i 0, p.getD (i + 1) 0, p.getD (i + 2) 0, p.getD (i + 3) 0, p.getD (i + 4) 0,
    p.getD (i + 5) 0⟩

def be32 (i : ℕ) : Word :=
  p.getD i 0 ++ p.getD (i + 1) 0 ++ p.getD (i + 2) 0 ++ p.getD (i + 3) 0

def bytes16 (w : Port) : List Byte := [w.extractLsb' 8 8, w.extractLsb' 0 8]

def bytes32 (w : Word) : List Byte :=
  [w.extractLsb' 24 8, w.extractLsb' 16 8, w.extractLsb' 8 8, w.extractLsb' 0 8]

@[simp] theorem length_bytes16 (w : Port) : (bytes16 w).length = 2 := rfl

@[simp] theorem length_bytes32 (w : Word) : (bytes32 w).length = 4 := rfl

theorem bytes16_append (w : Port) : w.extractLsb' 8 8 ++ w.extractLsb' 0 8 = w := by
  grind

theorem bytes32_append (w : Word) :
    w.extractLsb' 24 8 ++ w.extractLsb' 16 8 ++ w.extractLsb' 8 8 ++ w.extractLsb' 0 8 = w := by
  ext i hi
  grind

/-- The sum of the big-endian 16-bit words; an odd last byte is the high half of a word. -/
def sumWords : List Byte → ℕ
  | [] => 0
  | [a] => a.toNat * 256
  | a :: b :: p => a.toNat * 256 + b.toNat + sumWords p

/-- At most `n` rounds of `while (sum >> 16) sum = (sum & 0xFFFF) + (sum >> 16)`. -/
def foldCarry : ℕ → ℕ → ℕ
  | 0, sum => sum
  | n + 1, sum => if sum / 65536 = 0 then sum else foldCarry n (sum % 65536 + sum / 65536)

/-- The carry loop; two rounds end it for every 32-bit sum. -/
def foldSum (sum : ℕ) : ℕ := foldCarry 2 sum

theorem foldSum_eq {sum : ℕ} (h₀ : 0 < sum) (h : sum < 2 ^ 32) :
    foldSum sum = (sum - 1) % 65535 + 1 := by
  unfold foldSum
  simp only [foldCarry]
  split_ifs <;> omega

theorem foldSum_add_complement {sum : ℕ} (h₀ : 0 < sum) (h : sum < 2 ^ 31) :
    foldSum (sum + (65535 - foldSum sum)) = 65535 := by
  rw [foldSum_eq h₀ (by omega), foldSum_eq (by omega) (by omega)]
  omega

theorem sumWords_append {p q : List Byte} (h : p.length % 2 = 0) :
    sumWords (p ++ q) = sumWords p + sumWords q := by
  fun_induction sumWords p with
  | case1 => simp
  | case2 a => simp at h
  | case3 a b p ih =>
    simp only [List.length_cons] at h
    simp only [List.cons_append, sumWords, ih (by omega), Nat.add_assoc]

theorem sumWords_le : sumWords p ≤ 65535 * p.length := by
  fun_induction sumWords p with
  | case1 => simp
  | case2 a => have := a.isLt; simp; omega
  | case3 a b p ih =>
    simp only [length_cons]
    omega

end

/-- The sum over the pseudo header and the segment that both checksum loops compute. -/
def tcpSum (src dst : Ip4) (tcp : List Byte) : ℕ :=
  sumWords src.bytes + sumWords dst.bytes + 6 + tcp.length + sumWords tcp

def checksumOk (tcp : List Byte) (src dst : Ip4) : Bool := foldSum (tcpSum src dst tcp) = 65535

def checksumField (sum : ℕ) : Port := BitVec.ofNat 16 (65535 - foldSum sum)

def flagFin : Byte := 0x01
def flagSyn : Byte := 0x02
def flagRst : Byte := 0x04
def flagAck : Byte := 0x10

def hasFlag (flags m : Byte) : Bool := flags &&& m ≠ 0

def flagMakeSense (flags : Byte) : Bool :=
  !(hasFlag flags flagSyn && hasFlag flags flagFin) && flags ≠ 0

def tcpMinHeader : ℕ := 20
def tcpMaxPayload : ℕ := 1460

/-- The fields that the TCP handler reads from an accepted segment. -/
structure Segment where
  srcPort : Port
  dstPort : Port
  seq : Word
  ack : Word
  flags : Byte
  window : Port
  data : List Byte
  deriving DecidableEq

namespace Segment

variable (g : Segment)

def syn : Bool := hasFlag g.flags flagSyn
def fin : Bool := hasFlag g.flags flagFin
def rst : Bool := hasFlag g.flags flagRst
def isAck : Bool := hasFlag g.flags flagAck

end Segment

inductive TcpVerdict
  | accept
  | rejectTooShort
  | rejectBadHeaderLength
  | rejectBadChecksum
  | rejectNonsenseFlags
  deriving DecidableEq

inductive ConversationState
  | closed
  | listen
  | synSent
  | synReceived
  | established
  | finWait
  | closing
  | timeWait
  | finWait1
  | finWait2
  | closeWait
  | lastAck
  deriving DecidableEq

/-- The states in which the acknowledgement of our FIN is awaited. -/
def ConversationState.awaitsFinAck : ConversationState → Bool
  | .finWait1 | .closing | .lastAck => true
  | _ => false

def headerLen (p : List Byte) : ℕ := ((p.getD 12 0).extractLsb' 4 4).toNat * 4

def conversationCheck (p : List Byte) (src dst : Ip4) : TcpVerdict :=
  if p.length < tcpMinHeader then .rejectTooShort
  else if headerLen p < 20 ∨ p.length < headerLen p then .rejectBadHeaderLength
  else if !flagMakeSense (p.getD 13 0) then .rejectNonsenseFlags
  else if !checksumOk p src dst then .rejectBadChecksum
  else .accept

def decode (p : List Byte) : Segment where
  srcPort := be16 p 0
  dstPort := be16 p 2
  seq := be32 p 4
  ack := be32 p 8
  flags := p.getD 13 0
  window := be16 p 14
  data := p.drop (headerLen p)

theorem length_decode_data (p : Packet) : (decode p.bytes).data.length < 65536 := by
  have := p.length_lt
  simp only [decode, length_drop]
  omega

def ipHeader (total : ℕ) (src dst : Ip4) (csum : Port) : List Byte :=
  [0x45, 0] ++ bytes16 (BitVec.ofNat 16 total) ++ [0, 0, 0, 0, 64, 6] ++ bytes16 csum ++
    src.bytes ++ dst.bytes

def tcpHeader (g : Segment) (csum : Port) : List Byte :=
  bytes16 g.srcPort ++ bytes16 g.dstPort ++ bytes32 g.seq ++ bytes32 g.ack ++
    [0x50, g.flags] ++ bytes16 g.window ++ bytes16 csum ++ [0, 0]

@[simp] theorem length_ipHeader (total : ℕ) (src dst : Ip4) (csum : Port) :
    (ipHeader total src dst csum).length = 20 := rfl

@[simp] theorem length_tcpHeader (g : Segment) (csum : Port) : (tcpHeader g csum).length = 20 := rfl

section

variable (src dst : Ip4) (g : Segment)

/-- The segment as it is sent from `src` to `dst`, with its checksum. -/
def encode : List Byte :=
  tcpHeader g (checksumField (tcpSum src dst (tcpHeader g 0 ++ g.data))) ++ g.data

def tcpFrame (destMac ourMac : Mac) (ourIp peerIp : Ip4) (g : Segment) : Frame :=
  let total := 40 + g.data.length
  let ipCsum := checksumField (sumWords (ipHeader total ourIp peerIp 0))
  destMac.bytes ++ ourMac.bytes ++ [0x08, 0x00] ++ ipHeader total ourIp peerIp ipCsum ++
    encode ourIp peerIp g

@[simp] theorem length_encode : (encode src dst g).length = 20 + g.data.length := by
  rw [encode, length_append, length_tcpHeader]

@[simp] theorem length_tcpFrame (destMac ourMac : Mac) (ourIp peerIp : Ip4) (g : Segment) :
    (tcpFrame destMac ourMac ourIp peerIp g).length = 54 + g.data.length := by
  simp only [tcpFrame, length_append, Mac.length_bytes, length_ipHeader, length_encode,
    length_cons, length_nil]
  omega

theorem headerLen_encode : headerLen (encode src dst g) = 20 := by
  have h : (encode src dst g).getD 12 0 = 0x50 := rfl
  rw [headerLen, h]
  rfl

theorem decode_encode : decode (encode src dst g) = g := by
  simp only [decode, headerLen_encode, be16, be32]
  simp [encode, tcpHeader, bytes16, bytes32, bytes16_append, bytes32_append]

theorem sumWords_bytes16 (w : Port) : sumWords (bytes16 w) = w.toNat := by
  simp only [bytes16, sumWords, extractLsb'_toNat]
  omega

theorem sumWords_tcpHeader (csum : Port) :
    sumWords (tcpHeader g csum) = sumWords (tcpHeader g 0) + csum.toNat := by
  have h : ∀ w : Port, sumWords (tcpHeader g w) = sumWords (bytes16 g.srcPort ++
      bytes16 g.dstPort ++ bytes32 g.seq ++ bytes32 g.ack ++ [0x50, g.flags] ++
        bytes16 g.window) + w.toNat := by
    intro w
    have hz : sumWords [0, 0] = 0 := rfl
    rw [tcpHeader, sumWords_append (by simp), sumWords_append (by simp), sumWords_bytes16, hz,
      Nat.add_zero]
  have hz : (0 : Port).toNat = 0 := rfl
  rw [h csum, h 0, hz, Nat.add_zero]

theorem tcpSum_pos (p : List Byte) : 0 < tcpSum src dst p := by
  unfold tcpSum
  omega

theorem tcpSum_lt (p : List Byte) (hp : p.length < 16020) : tcpSum src dst p < 2 ^ 31 := by
  have hsum := sumWords_le p
  have hsrc := sumWords_le src.bytes
  have hdst := sumWords_le dst.bytes
  simp only [Ip4.bytes, length_cons, length_nil] at hsrc hdst
  simp only [tcpSum, Ip4.bytes]
  omega

theorem tcpSum_encode :
    tcpSum src dst (encode src dst g) = tcpSum src dst (tcpHeader g 0 ++ g.data) +
      (65535 - foldSum (tcpSum src dst (tcpHeader g 0 ++ g.data))) := by
  rw [tcpSum, encode, sumWords_append (by simp), sumWords_tcpHeader, checksumField,
    toNat_ofNat, tcpSum, sumWords_append (by simp)]
  simp only [length_append, length_tcpHeader]
  omega

theorem checksumOk_encode (hd : g.data.length < 16000) :
    checksumOk (encode src dst g) src dst = true := by
  have hlt : tcpSum src dst (tcpHeader g 0 ++ g.data) < 2 ^ 31 := by
    apply tcpSum_lt
    rw [length_append, length_tcpHeader]
    omega
  rw [checksumOk, tcpSum_encode, foldSum_add_complement (tcpSum_pos src dst _) hlt]
  rfl

theorem conversationCheck_encode (hf : flagMakeSense g.flags = true) (hd : g.data.length < 16000) :
    conversationCheck (encode src dst g) src dst = .accept := by
  have hfl : (encode src dst g).getD 13 0 = g.flags := rfl
  rw [conversationCheck, if_neg (by simp [tcpMinHeader]), headerLen_encode, hfl, hf,
    checksumOk_encode src dst g hd]
  simp

end

theorem length_nil_lt : ([] : List Byte).length < 65516 := by simp

def Segment.packet (g : Segment) (src dst : Ip4) (h : g.data.length < 65516 := by simp) : Packet :=
  ⟨encode src dst g, by rw [length_encode]; omega⟩

end Aevros
