import Aevros.Udp.Postcard

/-! # The stack accepts what it sends

The frames that `conversation_dispatch` and `postcard_dispatch` build are read back by
the checks of the receiving side, which were written separately.
-/

namespace Aevros

/-- The packet passes `compass_check`, and `body` is handed to the handler of `protocol`. -/
def Delivers (frame : Frame) (protocol : Byte) (src dst : Ip4) (body : List Byte) : Prop :=
  ∀ pad : List Byte, let p := frame.drop 14 ++ pad
    compassCheck p = .accept ∧ p.getD 9 0 = protocol ∧ Ip4.read p 12 = src ∧
      Ip4.read p 16 = dst ∧ compassPayload p = body

variable {destMac ourMac : Mac} {src dst : Ip4} {protocol : Byte} {body : List Byte}

theorem delivers_ipv4Packet (h : body.length < 65516) :
    Delivers (destMac.bytes ++ ourMac.bytes ++ [0x08, 0x00] ++ ipv4Packet protocol src dst body)
      protocol src dst body := by
  intro pad
  exact ⟨compassCheck_ipv4Packet h, rfl, rfl, rfl, compassPayload_ipv4Packet h⟩

theorem tcpFrame_eq (destMac ourMac : Mac) (src dst : Ip4) (g : Segment) :
    tcpFrame destMac ourMac src dst g = destMac.bytes ++ ourMac.bytes ++ [0x08, 0x00] ++
      ipv4Packet 6 src dst (encode src dst g) := by
  have htotal : 40 + g.data.length = 20 + (encode src dst g).length := by
    rw [length_encode]
    omega
  rw [tcpFrame, htotal]
  rfl

/-- Packets that this stack builds are accepted by this stack. -/
theorem own_packets_accepted : (∀ (destMac ourMac : Mac) (ourIp peerIp : Ip4) (g : Segment),
      g.data.length ≤ tcpMaxPayload → flagMakeSense g.flags = true →
      ∃ tcp, Delivers (tcpFrame destMac ourMac ourIp peerIp g) 6 ourIp peerIp tcp ∧
        conversationCheck tcp ourIp peerIp = .accept ∧ tcp.drop (headerLen tcp) = g.data ∧
        decode tcp = g) ∧
    ∀ (destMac ourMac : Mac) (ourIp destIp : Ip4) (srcPort destPort : Port) (data : List Byte),
      data.length ≤ postcardMaxPayload →
      ∃ udp, Delivers (udpFrame destMac ourMac ourIp destIp srcPort destPort data) 17 ourIp
          destIp udp ∧
        postcardCheck udp ourIp destIp = (.accept, data.length + 8) ∧
        be16 udp 0 = srcPort ∧ be16 udp 2 = destPort ∧ udp.drop udpHeaderLen = data := by
  constructor
  · intro destMac ourMac ourIp peerIp g hlen hflags
    have hlt : g.data.length < 16000 := hlen.trans_lt (by decide)
    have hdecode := decode_encode ourIp peerIp g
    refine ⟨encode ourIp peerIp g, ?_, conversationCheck_encode ourIp peerIp g hflags hlt,
      congrArg Segment.data hdecode, hdecode⟩
    rw [tcpFrame_eq]
    exact delivers_ipv4Packet (by rw [length_encode]; omega)
  · intro destMac ourMac ourIp destIp srcPort destPort data hlen
    have hlt : data.length < 16000 := hlen.trans_lt (by decide)
    refine ⟨_, delivers_ipv4Packet ?_, ?_, be16_srcPort_datagram, be16_dstPort_datagram,
      List.drop_left' length_udpHeader⟩
    · rw [length_datagram, udpHeaderLen]
      omega
    · rw [postcardCheck_datagram hlt, udpHeaderLen, Nat.add_comm]

theorem zero_checksum_accepted : checksumField (udpPseudo ⟨10, 0, 0, 1⟩ ⟨10, 0, 0, 2⟩ 10 +
      sumWords (udpHeader 1000 53 10 0 ++ [0xE7, 0xBA])) = 0 ∧
    ∃ udp, Delivers (udpFrame {} {} ⟨10, 0, 0, 1⟩ ⟨10, 0, 0, 2⟩ 1000 53 [0xE7, 0xBA]) 17
        ⟨10, 0, 0, 1⟩ ⟨10, 0, 0, 2⟩ udp ∧
      postcardCheck udp ⟨10, 0, 0, 1⟩ ⟨10, 0, 0, 2⟩ = (.accept, 10) ∧
      be16 udp 0 = 1000 ∧ be16 udp 2 = 53 ∧ udp.drop udpHeaderLen = [0xE7, 0xBA] :=
  ⟨by decide, own_packets_accepted.2 {} {} ⟨10, 0, 0, 1⟩ ⟨10, 0, 0, 2⟩ 1000 53 [0xE7, 0xBA]
    (by decide)⟩

end Aevros
