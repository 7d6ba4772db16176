import Aevros.Six.Postcard

/-! # Datagrams over IPv6 from one host to another

A datagram that is sent passes all checks of the receiver, which hands out the payload and eight
bytes of memory behind it, as the length field counts the header.
-/

namespace Aevros

open List

/-- The eight bytes in memory after a datagram with `n` bytes of payload. -/
def strayBytes (beyond : ℕ → Byte) (n : ℕ) : List Byte :=
  (range udpHeaderLen).map fun i => beyond (udpHeaderLen + (n + i))

@[simp] theorem length_strayBytes (beyond : ℕ → Byte) (n : ℕ) :
    (strayBytes beyond n).length = udpHeaderLen := by
  rw [strayBytes, length_map, length_range]

variable {s : Mailroom6} {slot : Slot6} {src dst : Ip6} {srcPort destPort : Port} {pseudo : ℕ}
  {data : List Byte} {beyond : ℕ → Byte}

theorem udp6Data_datagram (i : ℕ) : udp6Data (datagram pseudo srcPort destPort data) beyond i =
      data[i]?.getD (beyond (udpHeaderLen + i)) := by
  have hlen : udpHeaderLen = 8 := rfl
  rw [udp6Data, datagram, getD_eq_getElem?_getD, getElem?_append_right (by simp [hlen]),
    length_udpHeader, hlen, Nat.add_sub_cancel_left]

theorem map_udp6Data_datagram : (range (udpHeaderLen + data.length)).map
        (udp6Data (datagram pseudo srcPort destPort data) beyond) =
      data ++ strayBytes beyond data.length := by
  rw [Nat.add_comm, range_add, map_append, map_map]
  congr 1
  · apply ext_getElem
    · simp
    · intro i hi hi'
      simp [udp6Data_datagram, hi']
  · apply map_congr_left
    intro i _
    rw [Function.comp_apply, udp6Data_datagram, getElem?_eq_none (Nat.le_add_right ..)]
    rfl

theorem waiting_postcard6Handle (hopen : menuIsOpen s.menu destPort 17 = true)
    (hslot : lockbox6FindListener s.lockbox destPort 17 = some slot)
    (hroom : (s.postboxes slot).pending < postbox6MaxPending) (h : data.length < 16000) :
    ((postcard6Handle s (datagram (udp6Pseudo src dst (udpHeaderLen + data.length)) srcPort
        destPort data) beyond src dst).2.postboxes slot).waiting =
      (s.postboxes slot).waiting ++
        if udpHeaderLen + data.length ≤ postbox6MaxDatagram then
          [⟨src, srcPort, data ++ strayBytes beyond data.length⟩] else [] := by
  unfold postcard6Handle
  rw [if_neg (not_not.mpr (postcard6Check_datagram h))]
  dsimp only
  rw [be16_dstPort_datagram, be16_srcPort_datagram, be16_len_datagram (by omega), hopen, hslot,
    if_neg (by decide)]
  dsimp only
  rw [Function.update_self]
  split_ifs with hfits
  · rw [Postbox6.waiting_deposit hfits hroom, map_udp6Data_datagram]
  · rw [postbox6Deposit, if_pos (Nat.lt_of_not_le hfits), append_nil]

variable {r : Rolodex6} {destIp ourIp : Ip6} {ourMac : Mac} {frame : Frame} {maxLen : ℕ}
  {sizes : List ℕ}

theorem postcard6Frame_some
    (h : postcard6Frame r destIp destPort srcPort ourMac ourIp data = some frame) :
    data.length ≤ postcard6MaxPayload ∧ frame.drop 54 =
      datagram (udp6Pseudo ourIp destIp (udpHeaderLen + data.length)) srcPort destPort data := by
  unfold postcard6Frame at h
  split_ifs at h with hlen
  obtain ⟨destMac, -, rfl⟩ := Option.map_eq_some_iff.mp h
  exact ⟨Nat.le_of_not_lt hlen, drop_left' (by simp)⟩

theorem take_append_strayBytes_iff (h : data.length ≤ maxLen) :
    (data ++ strayBytes beyond data.length).take maxLen = data ↔ maxLen = data.length := by
  constructor
  · intro htake
    have hlen := congrArg length htake
    rw [length_take, length_append, length_strayBytes, udpHeaderLen] at hlen
    omega
  · rintro rfl
    exact take_left

/-- A read returns the datagram exactly if its buffer and the queue have room for it. -/
theorem datagram_returned_iff
    (hsent : postcard6Frame r destIp destPort srcPort ourMac ourIp data = some frame)
    (hopen : menuIsOpen s.menu destPort 17 = true)
    (hbound : lockbox6FindListener s.lockbox destPort 17 = some slot)
    (hroom : (s.postboxes slot).pending < postbox6MaxPending)
    (hearlier : sizes.length = (s.postboxes slot).pending) (hbuffer : data.length ≤ maxLen) :
    let received := (postcard6Handle s (frame.drop 54) beyond ourIp destIp).2
    postcard6Check (frame.drop 54) ourIp destIp = .accept ∧
      ((postbox6Read ((received.postboxes slot).afterReads sizes) maxLen).1 =
          some ⟨ourIp, srcPort, data⟩ ↔
        maxLen = data.length ∧ data.length + udpHeaderLen ≤ postbox6MaxDatagram) := by
  obtain ⟨hlen, hframe⟩ := postcard6Frame_some hsent
  have hlt : data.length < 16000 := hlen.trans_lt (by decide)
  rw [hframe]
  refine ⟨postcard6Check_datagram hlt, ?_⟩
  rw [Postbox6.read_fst, Postbox6.waiting_afterReads,
    waiting_postcard6Handle hopen hbound hroom hlt,
    drop_left' ((s.postboxes slot).length_waiting.trans hearlier.symm),
    Nat.add_comm udpHeaderLen]
  split_ifs with hfits
  · rw [head?_cons, Option.map_some, Option.some.injEq, Envelope6.mk.injEq, and_iff_left hfits]
    exact (and_iff_right rfl).trans ((and_iff_right rfl).trans (take_append_strayBytes_iff hbuffer))
  · exact iff_of_false nofun fun h => hfits h.2

def echoHost : Mailroom6 where
  menu := (menuOpenPort (fun _ => {}) 7 17).2
  lockbox i := if i.val = 0 then Lockbox6Entry.claim {} ⟨7, fun _ => 0, 0, 17⟩ else {}

def echoFrame : Frame :=
  udp6Frame ⟨2, 2, 2, 2, 2, 2⟩ {} (linkLocal 1) (linkLocal 2) 9 7 [1, 2, 3]

theorem echoFrame_built :
    postcard6Frame echoRolodex (linkLocal 2) 7 9 {} (linkLocal 1) [1, 2, 3] = some echoFrame := by
  decide +kernel

theorem three_bytes_returned :
    postcard6Check (echoFrame.drop 54) (linkLocal 1) (linkLocal 2) = .accept ∧
      ((postbox6Read (((postcard6Handle echoHost (echoFrame.drop 54) (fun _ => 0xAA) (linkLocal 1)
          (linkLocal 2)).2.postboxes 0).afterReads []) 3).1 = some ⟨linkLocal 1, 9, [1, 2, 3]⟩ ↔
        3 = [1, 2, 3].length ∧ [1, 2, 3].length + udpHeaderLen ≤ postbox6MaxDatagram) :=
  datagram_returned_iff echoFrame_built (by decide) (by decide) (by decide) rfl (by decide)

theorem eleven_bytes_returned :
    postcard6Frame echoRolodex (linkLocal 2) 7 9 {} (linkLocal 1) [1, 2, 3] = some echoFrame ∧
      (postbox6Read ((postcard6Handle echoHost (echoFrame.drop 54) (fun _ => 0xAA) (linkLocal 1)
        (linkLocal 2)).2.postboxes 0) postbox6MaxDatagram).1 = some ⟨linkLocal 1, 9,
          [1, 2, 3, 0xAA, 0xAA, 0xAA, 0xAA, 0xAA, 0xAA, 0xAA, 0xAA]⟩ :=
  ⟨echoFrame_built, by decide +kernel⟩

end Aevros
