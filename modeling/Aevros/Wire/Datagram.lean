import Aevros.Wire.Segment

/-! # The IPv4 header and UDP datagrams

The IPv4 header and its check; and UDP datagrams, whose checksum of zero is sent as `0xFFFF` because
a zero field means that there is no checksum.
-/

namespace Aevros

open List BitVec

def minIpHeader : ℕ := 20

inductive IpVerdict
  | accept
  | rejectTooShort
  | rejectBadVersion
  | rejectBadHeaderLen
  | rejectLengthMismatch
  | rejectFragmented
  | rejectBadChecksum
  deriving DecidableEq

def ipHeaderLen (p : List Byte) : ℕ := (p.getD 0 0 &&& 0x0F).toNat * 4

def ipChecksumOk (header : List Byte) : Bool := foldSum (sumWords header) = 65535

def compassCheck (p : List Byte) : IpVerdict :=
  if p.length < minIpHeader then .rejectTooShort
  else if p.getD 0 0 >>> 4 ≠ 4 then .rejectBadVersion
  else if (p.getD 0 0 &&& 0x0F).toNat < 5 then .rejectBadHeaderLen
  else if p.length < ipHeaderLen p then .rejectBadHeaderLen
  else if p.length < (be16 p 2).toNat then .rejectLengthMismatch
  else if (be16 p 2).toNat < ipHeaderLen p then .rejectLengthMismatch
  else if be16 p 6 &&& 0x1FFF ≠ 0 ∨ (be16 p 6).getLsbD 13 = true then .rejectFragmented
  else if !ipChecksumOk (p.take (ipHeaderLen p)) then .rejectBadChecksum
  else .accept

/-- The bytes of an accepted packet that `compass_handle` hands to the handler. -/
def compassPayload (p : List Byte) : List Byte :=
  (p.drop (ipHeaderLen p)).take ((be16 p 2).toNat - ipHeaderLen p)

def ipv4Header (protocol : Byte) (total : ℕ) (src dst : Ip4) (csum : Port) : List Byte :=
  [0x45, 0] ++ bytes16 (BitVec.ofNat 16 total) ++ [0, 0, 0, 0, 64, protocol] ++ bytes16 csum ++
    src.bytes ++ dst.bytes

def ipv4Packet (protocol : Byte) (src dst : Ip4) (body : List Byte) : List Byte :=
  let total := 20 + body.length
  ipv4Header protocol total src dst
    (checksumField (sumWords (ipv4Header protocol total src dst 0))) ++ body

variable {protocol : Byte} {total : ℕ} {src dst : Ip4} {csum : Port} {body pad : List Byte}

@[simp] theorem length_ipv4Header : (ipv4Header protocol total src dst csum).length = 20 := rfl

theorem sumWords_ipv4Header : sumWords (ipv4Header protocol total src dst csum) =
      sumWords (ipv4Header protocol total src dst 0) + csum.toNat := by
  have h : ∀ w : Port, sumWords (ipv4Header protocol total src dst w) =
      sumWords ([0x45, 0] ++ bytes16 (BitVec.ofNat 16 total) ++ [0, 0, 0, 0, 64, protocol]) +
        w.toNat + sumWords src.bytes + sumWords dst.bytes := by
    intro w
    rw [ipv4Header, sumWords_append (by simp [Ip4.bytes]), sumWords_append (by simp),
      sumWords_append (by simp), sumWords_bytes16]
  have hz : (0 : Port).toNat = 0 := rfl
  rw [h csum, h 0]
  omega

theorem sumWords_ipv4Header_pos : 0 < sumWords (ipv4Header protocol total src dst csum) := by
  have h : sumWords (ipv4Header protocol total src dst csum) =
      sumWords [0x45, 0] + sumWords ((ipv4Header protocol total src dst csum).drop 2) := rfl
  have hfirst : sumWords [0x45, 0] = 17664 := rfl
  omega

theorem ipChecksumOk_ipv4Header : ipChecksumOk (ipv4Header protocol total src dst
    (checksumField (sumWords (ipv4Header protocol total src dst 0)))) = true := by
  have hle := sumWords_le (ipv4Header protocol total src dst 0)
  rw [length_ipv4Header] at hle
  rw [ipChecksumOk, sumWords_ipv4Header, checksumField, toNat_ofNat,
    Nat.mod_eq_of_lt (by omega), foldSum_add_complement sumWords_ipv4Header_pos (by omega)]
  rfl

@[simp] theorem length_ipv4Packet :
    (ipv4Packet protocol src dst body).length = 20 + body.length := by
  rw [ipv4Packet, length_append, length_ipv4Header]

theorem getD_zero_ipv4Packet : (ipv4Packet protocol src dst body ++ pad).getD 0 0 = 0x45 := rfl

theorem ipHeaderLen_ipv4Packet : ipHeaderLen (ipv4Packet protocol src dst body ++ pad) = 20 := by
  rw [ipHeaderLen, getD_zero_ipv4Packet]
  rfl

theorem be16_total_ipv4Packet (h : body.length < 65516) :
    (be16 (ipv4Packet protocol src dst body ++ pad) 2).toNat = 20 + body.length := by
  have hfield : be16 (ipv4Packet protocol src dst body ++ pad) 2 =
      BitVec.ofNat 16 (20 + body.length) := bytes16_append _
  rw [hfield]
  exact Nat.mod_eq_of_lt (by omega)

theorem take_ipv4Packet : (ipv4Packet protocol src dst body ++ pad).take 20 =
    ipv4Header protocol (20 + body.length) src dst
      (checksumField (sumWords (ipv4Header protocol (20 + body.length) src dst 0))) := by
  exact take_left' length_ipv4Header

theorem compassCheck_ipv4Packet (h : body.length < 65516) :
    compassCheck (ipv4Packet protocol src dst body ++ pad) = .accept := by
  have hlen : (ipv4Packet protocol src dst body ++ pad).length = 20 + body.length + pad.length := by
    rw [length_append, length_ipv4Packet]
  have hfrag : be16 (ipv4Packet protocol src dst body ++ pad) 6 = 0 := by
    have hzero : (0 : Byte) ++ (0 : Byte) = (0 : BitVec (8 + 8)) := by decide
    exact hzero
  unfold compassCheck minIpHeader
  rw [ipHeaderLen_ipv4Packet, be16_total_ipv4Packet h, getD_zero_ipv4Packet, hfrag,
    take_ipv4Packet, ipChecksumOk_ipv4Header, if_neg (by omega), if_neg (by decide),
      if_neg (by decide), if_neg (by omega), if_neg (by omega), if_neg (by omega),
        if_neg (by decide), if_neg (by decide)]

theorem compassPayload_ipv4Packet (h : body.length < 65516) :
    compassPayload (ipv4Packet protocol src dst body ++ pad) = body := by
  rw [compassPayload, ipHeaderLen_ipv4Packet, be16_total_ipv4Packet h, Nat.add_sub_cancel_left]
  exact take_left

def udpHeaderLen : ℕ := 8

def udpHeader (srcPort dstPort : Port) (len : ℕ) (csum : Port) : List Byte :=
  bytes16 srcPort ++ bytes16 dstPort ++ bytes16 (BitVec.ofNat 16 len) ++ bytes16 csum

/-- The checksum field of a datagram: a computed zero is sent as `0xFFFF`. -/
def udpField (sum : ℕ) : Port := if checksumField sum = 0 then 0xFFFF else checksumField sum

/-- The datagram with its checksum, where the words of the pseudo header sum up to `pseudo`. -/
def datagram (pseudo : ℕ) (srcPort dstPort : Port) (data : List Byte) : List Byte :=
  let len := udpHeaderLen + data.length
  udpHeader srcPort dstPort len
    (udpField (pseudo + sumWords (udpHeader srcPort dstPort len 0 ++ data))) ++ data

variable {srcPort dstPort : Port} {len pseudo sum : ℕ} {data : List Byte}

@[simp] theorem length_udpHeader : (udpHeader srcPort dstPort len csum).length = 8 := rfl

@[simp] theorem length_datagram :
    (datagram pseudo srcPort dstPort data).length = udpHeaderLen + data.length := by
  rw [datagram, length_append, length_udpHeader, udpHeaderLen]

theorem sumWords_udpHeader : sumWords (udpHeader srcPort dstPort len csum) =
    srcPort.toNat + dstPort.toNat + (BitVec.ofNat 16 len).toNat + csum.toNat := by
  rw [udpHeader, sumWords_append (by simp), sumWords_append (by simp), sumWords_append (by simp)]
  simp only [sumWords_bytes16]

theorem foldSum_add_udpField (h₀ : 0 < sum) (h : sum < 2 ^ 31) :
    foldSum (sum + (udpField sum).toNat) = 65535 := by
  have hfield : (checksumField sum).toNat = 65535 - foldSum sum := by
    exact Nat.mod_eq_of_lt (by omega)
  unfold udpField
  split_ifs with hzero
  · have hsum := foldSum_eq h₀ (by omega)
    have hmax : (0xFFFF : Port).toNat = 65535 := rfl
    rw [hzero] at hfield
    rw [foldSum_eq (by omega) (by omega)]
    have hz : (0 : Port).toNat = 0 := rfl
    omega
  · rw [hfield]
    exact foldSum_add_complement h₀ h

theorem udpField_ne_zero : udpField sum ≠ 0 := by
  unfold udpField
  split_ifs with hzero
  · decide
  · exact hzero

theorem foldSum_datagram (hpseudo : 0 < pseudo) (hlt : pseudo < 2 ^ 30)
    (hdata : data.length < 16000) :
    foldSum (pseudo + sumWords (datagram pseudo srcPort dstPort data)) = 65535 := by
  have hsum := sumWords_le (udpHeader srcPort dstPort (udpHeaderLen + data.length) 0 ++ data)
  rw [List.length_append, length_udpHeader] at hsum
  have heq : pseudo + sumWords (datagram pseudo srcPort dstPort data) =
      pseudo + sumWords (udpHeader srcPort dstPort (udpHeaderLen + data.length) 0 ++ data) +
        (udpField (pseudo + sumWords (udpHeader srcPort dstPort (udpHeaderLen + data.length) 0 ++
          data))).toNat := by
    have hz : (0 : Port).toNat = 0 := rfl
    rw [datagram, sumWords_append (by simp), sumWords_append (by simp), sumWords_udpHeader,
      sumWords_udpHeader]
    omega
  rw [heq]
  exact foldSum_add_udpField (by omega) (by omega)

theorem be16_srcPort_datagram : be16 (datagram pseudo srcPort dstPort data) 0 = srcPort :=
  bytes16_append _

theorem be16_dstPort_datagram : be16 (datagram pseudo srcPort dstPort data) 2 = dstPort :=
  bytes16_append _

theorem be16_len_datagram (h : data.length < 65528) :
    (be16 (datagram pseudo srcPort dstPort data) 4).toNat = udpHeaderLen + data.length := by
  have hfield : be16 (datagram pseudo srcPort dstPort data) 4 =
      BitVec.ofNat 16 (udpHeaderLen + data.length) := bytes16_append _
  rw [hfield]
  exact Nat.mod_eq_of_lt (by unfold udpHeaderLen; omega)

theorem be16_checksum_datagram : be16 (datagram pseudo srcPort dstPort data) 6 ≠ 0 := by
  have hfield : be16 (datagram pseudo srcPort dstPort data) 6 = udpField (pseudo +
      sumWords (udpHeader srcPort dstPort (udpHeaderLen + data.length) 0 ++ data)) :=
    bytes16_append _
  rw [hfield]
  exact udpField_ne_zero

end Aevros
