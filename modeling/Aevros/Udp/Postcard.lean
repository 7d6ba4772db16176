import Aevros.Office.Transmit
import Aevros.Wire.Datagram

/-! # Postcard: UDP over IPv4

`postcard_dispatch` hands the frame of a datagram to Bailiff, or to Foyer. `postcard_check` is what
a received datagram has to pass.
-/

namespace Aevros

def postcardMaxPayload : ℕ := 1472

inductive UdpVerdict
  | accept
  | rejectTooShort
  | rejectLengthMismatch
  | rejectBadChecksum
  deriving DecidableEq

/-- The words of the pseudo header of a datagram of `len` bytes. -/
def udpPseudo (src dst : Ip4) (len : ℕ) : ℕ :=
  sumWords src.bytes + sumWords dst.bytes + 17 + len

/-- `checksum_ok` of Postcard; a zero field means that there is no checksum. -/
def udpChecksumOk (udp : List Byte) (src dst : Ip4) : Bool :=
  be16 udp 6 = 0 || foldSum (udpPseudo src dst udp.length + sumWords udp) = 65535

/-- `postcard_check` with the declared length, which is 0 if it is not read. -/
def postcardCheck (p : List Byte) (src dst : Ip4) : UdpVerdict × ℕ :=
  if p.length < udpHeaderLen then (.rejectTooShort, 0)
  else
    let declaredLen := (be16 p 4).toNat
    if declaredLen < udpHeaderLen ∨ p.length < declaredLen then
      (.rejectLengthMismatch, declaredLen)
    else if !udpChecksumOk (p.take declaredLen) src dst then (.rejectBadChecksum, declaredLen)
    else (.accept, declaredLen)

def udpFrame (destMac ourMac : Mac) (ourIp destIp : Ip4) (srcPort destPort : Port)
    (data : List Byte) : Frame :=
  destMac.bytes ++ ourMac.bytes ++ [0x08, 0x00] ++ ipv4Packet 17 ourIp destIp
    (datagram (udpPseudo ourIp destIp (udpHeaderLen + data.length)) srcPort destPort data)

def postcardDispatch (o : Office) (destIp : Ip4) (destPort srcPort : Port) (ourMac : Mac)
    (ourIp : Ip4) (data : List Byte) : Bool × Office :=
  if postcardMaxPayload < data.length then (false, o)
  else if destIp = ⟨255, 255, 255, 255⟩ then
    let broadcast : Mac := ⟨0xFF, 0xFF, 0xFF, 0xFF, 0xFF, 0xFF⟩
    bailiffTransmit o (udpFrame broadcast ourMac ourIp destIp srcPort destPort data)
  else match atlasLookup o.atlas destIp with
    | none => (false, o)
    | some nextHop =>
      match rolodexLookup o.rolodex nextHop with
      | some mac => bailiffTransmit o (udpFrame mac ourMac ourIp destIp srcPort destPort data)
      | none => foyerQueue o nextHop ourMac (udpFrame {} ourMac ourIp destIp srcPort destPort data)

variable {src dst : Ip4} {srcPort dstPort : Port} {data : List Byte}

theorem udpPseudo_lt {len : ℕ} (h : len < 65536) : udpPseudo src dst len < 2 ^ 30 := by
  have hsrc := sumWords_le src.bytes
  have hdst := sumWords_le dst.bytes
  simp only [Ip4.bytes, List.length_cons, List.length_nil] at hsrc hdst
  simp only [udpPseudo, Ip4.bytes]
  omega

theorem postcardCheck_datagram (h : data.length < 16000) :
    postcardCheck (datagram (udpPseudo src dst (udpHeaderLen + data.length)) srcPort dstPort data)
      src dst = (.accept, udpHeaderLen + data.length) := by
  have hok : udpChecksumOk (datagram (udpPseudo src dst (udpHeaderLen + data.length)) srcPort
      dstPort data) src dst = true := by
    rw [udpChecksumOk, length_datagram, foldSum_datagram (by unfold udpPseudo; omega)
      (udpPseudo_lt (by unfold udpHeaderLen; omega)) h]
    simp
  unfold postcardCheck
  rw [be16_len_datagram (by omega), length_datagram, if_neg (by omega), if_neg (by omega),
    List.take_of_length_le length_datagram.le, hok]
  rfl

end Aevros
