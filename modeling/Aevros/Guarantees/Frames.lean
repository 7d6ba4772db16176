import Aevros.Guarantees.Neighbours
import Aevros.Guarantees.Observation
import Aevros.Office.Mailroom
import Aevros.Udp.Postcard

/-! # Frames on their way in

ARP packets are taken only without padding. The observer and the IPv4 stack read a packet alike
unless its total length reaches into the checksum of the frame.
-/

namespace Aevros

open List Function Option

namespace Rolodex

variable {r : Rolodex} {now : Word} {ip : Ip4} {mac : Mac}

/-- The book already says what a claim of the address would make it say. -/
def Knows (now : Word) (r : Rolodex) (ip : Ip4) (mac : Mac) : Prop :=
  (∀ i, (r.book i).inUse = true → ¬ (r.book i).Stale now) ∧
    (∀ i ∈ r.findEntry ip, (r.book i).claimed now mac = r.book i) ∧
      (r.findEntry ip = none → ∀ i, (r.book i).inUse = true)

theorem expireStaleEntries_eq (h : ∀ i, (r.book i).inUse = true → ¬ (r.book i).Stale now) :
    r.expireStaleEntries now = r := by
  have hbook : (r.expireStaleEntries now).book = r.book := by
    ext1 i
    refine if_neg ?_
    simpa [RolodexEntry.Stale] using h i
  cases r
  simpa [expireStaleEntries] using hbook

theorem not_stale_of_learnOrDispute_eq (h : (r.learnOrDispute now ip mac).book = r.book)
    {i : Fin rolodexCapacity} (huse : (r.book i).inUse = true) : ¬ (r.book i).Stale now := by
  intro hstale
  have hgone : (r.expireStaleEntries now).book i ≠ r.book i := by
    intro heq
    have hkey := (shed_expireStaleEntries r now).gone i fun hl => hl.2 hstale
    rw [heq, RolodexEntry.key, Keyed.tag_eq_none_iff, huse] at hkey
    cases hkey
  have hi := congrFun h i
  obtain ⟨j, hl, -, hb⟩ | ⟨-, ⟨j, -, hb⟩ | hb⟩ := learnOrDispute_cases r now ip mac
  · rw [hb, update_of_ne (by rintro rfl; exact hl.2 hstale)] at hi
    exact hgone hi
  · rw [hb, update_apply] at hi
    split_ifs at hi
    · rw [← hi, RolodexEntry.Stale, BitVec.sub_self] at hstale
      cases hstale
    · exact hgone hi
  · rw [hb] at hi
    exact hgone hi

theorem learnOrDispute_book (h : ∀ i, (r.book i).inUse = true → ¬ (r.book i).Stale now) :
    (r.learnOrDispute now ip mac).book = (r.findEntry ip).elim
      ((Fin.find? fun i => !(r.book i).inUse).elim r.book fun i =>
        update r.book i ⟨ip, mac, now, true, false⟩)
      fun i => update r.book i ((r.book i).claimed now mac) := by
  unfold learnOrDispute RolodexEntry.claimed
  simp only [expireStaleEntries_eq h]
  cases r.findEntry ip with
  | some i =>
    dsimp only [Option.elim]
    split_ifs <;> rfl
  | none => cases Fin.find? fun i => !(r.book i).inUse <;> rfl

theorem learnOrDispute_book_eq_iff : (r.learnOrDispute now ip mac).book = r.book ↔
    Knows now r ip mac := by
  constructor
  · intro h
    have hfresh : ∀ i, (r.book i).inUse = true → ¬ (r.book i).Stale now :=
      fun i => not_stale_of_learnOrDispute_eq h
    rw [learnOrDispute_book hfresh] at h
    refine ⟨hfresh, fun i hi => ?_, fun hnone => ?_⟩
    · rw [mem_def.mp hi] at h
      simpa using congrFun h i
    · rw [hnone] at h
      cases hfree : Fin.find? fun i => !(r.book i).inUse with
      | none => simpa using hfree
      | some j =>
        have hj : (r.book j).inUse = false := by simpa using Fin.eq_true_of_find?_eq_some hfree
        rw [hfree] at h
        simp [← congrFun h j] at hj
  · rintro ⟨hfresh, hsome, hnone⟩
    rw [learnOrDispute_book hfresh]
    cases hf : r.findEntry ip with
    | some i => simp [hsome i hf]
    | none =>
      have hfree : (Fin.find? fun i => !(r.book i).inUse) = none := by simpa using hnone hf
      rw [hfree]
      rfl

theorem learnOrDispute_keeps (r : Rolodex) (now : Word) (ip : Ip4) (mac : Mac) :
    (r.learnOrDispute now ip mac).haveOurIp = r.haveOurIp ∧
      (r.learnOrDispute now ip mac).ourIp = r.ourIp ∧
        (r.learnOrDispute now ip mac).pendingReply = r.pendingReply := by
  unfold learnOrDispute
  dsimp only
  split
  · split_ifs <;> exact ⟨rfl, rfl, rfl⟩
  · split <;> exact ⟨rfl, rfl, rfl⟩

/-- The packet is not believed, or it tells nothing new and asks for nothing new. -/
def Uninformative (now : Word) (r : Rolodex) (payload : List Byte) (srcMac : Mac) : Prop :=
  let senderMac := Mac.read payload 8
  let senderIp := Ip4.read payload 14
  senderMac ≠ srcMac ∨ Knows now r senderIp senderMac ∧
    (be16 payload 6 = arpRequest ∧ r.haveOurIp ∧ Ip4.read payload 24 = r.ourIp →
      r.pendingReply = some (senderIp, senderMac))

theorem rolodexHandle_same_iff {payload : List Byte} {srcMac : Mac}
    (hlen : payload.length = arpPacketSize) :
    (rolodexHandle now r payload srcMac).book = r.book ∧
      (rolodexHandle now r payload srcMac).pendingReply = r.pendingReply ↔
        Uninformative now r payload srcMac := by
  obtain ⟨hhave, hours, hpending⟩ :=
    learnOrDispute_keeps r now (Ip4.read payload 14) (Mac.read payload 8)
  unfold rolodexHandle Uninformative
  dsimp only
  rw [if_neg (not_not.mpr hlen), ← learnOrDispute_book_eq_iff, hhave, hours]
  by_cases hsender : Mac.read payload 8 = srcMac
  swap
  · simp [hsender]
  rw [if_neg (not_not.mpr hsender), or_iff_right (not_not.mpr hsender)]
  split_ifs with hask
  · simp [hask, eq_comm]
  · simp [hask, hpending]

end Rolodex

variable {r : Rolodex} {now : Word} {frame pad : Frame}

theorem deliverToRolodex_append (hlen : frame.length = ethHeader + arpPacketSize)
    (htype : be16 frame 12 = ethertypeArp) (pad : Frame) : deliverToRolodex now r (frame ++ pad) =
      rolodexHandle now r (frame.drop ethHeader ++ pad) (Mac.read frame 6) := by
  have hget : ∀ i < 42, (frame ++ pad).getD i 0 = frame.getD i 0 := by
    intro i hi
    rw [getD_eq_getElem?_getD, getElem?_append_left (hlen ▸ hi), ← getD_eq_getElem?_getD]
  have hdrop : (frame ++ pad).drop ethHeader = frame.drop ethHeader ++ pad :=
    drop_append_of_le_length (hlen ▸ by decide)
  have htype' : be16 (frame ++ pad) 12 = ethertypeArp := by
    rw [← htype, be16, be16, hget 12 (by decide), hget 13 (by decide)]
  have hmac : Mac.read (frame ++ pad) 6 = Mac.read frame 6 := by
    simp only [Mac.read, hget _ (show 6 < 42 by decide), hget _ (show 6 + 1 < 42 by decide),
      hget _ (show 6 + 2 < 42 by decide), hget _ (show 6 + 3 < 42 by decide),
      hget _ (show 6 + 4 < 42 by decide), hget _ (show 6 + 5 < 42 by decide)]
  have hmail : mailroomDeliver (frame ++ pad) =
      some (.rolodex, frame.drop ethHeader ++ pad, Mac.read frame 6) := by
    rw [mailroomDeliver, htype', hdrop, hmac]
    rfl
  rw [deliverToRolodex, hmail]

/-- Padding makes no difference exactly if there is none, or the packet itself makes none. -/
theorem padding_ignored_iff (hlen : frame.length = ethHeader + arpPacketSize)
    (htype : be16 frame 12 = ethertypeArp) :
    (deliverToRolodex now r (frame ++ pad)).book = (deliverToRolodex now r frame).book ∧
      (deliverToRolodex now r (frame ++ pad)).pendingReply =
        (deliverToRolodex now r frame).pendingReply ↔
      pad = [] ∨ Rolodex.Uninformative now r (frame.drop ethHeader) (Mac.read frame 6) := by
  have hpayload : (frame.drop ethHeader).length = arpPacketSize := by
    rw [length_drop, hlen, Nat.add_sub_cancel_left]
  have hplain : deliverToRolodex now r frame =
      rolodexHandle now r (frame.drop ethHeader) (Mac.read frame 6) := by
    simpa using deliverToRolodex_append hlen htype []
  cases pad with
  | nil => simp
  | cons b pad =>
    have hpadded : deliverToRolodex now r (frame ++ b :: pad) = r := by
      rw [deliverToRolodex_append hlen htype, rolodexHandle, if_pos]
      rw [length_append, hpayload, length_cons]
      omega
    rw [hpadded, hplain, ← Rolodex.rolodexHandle_same_iff hpayload]
    simp [eq_comm]

def arpQuestion : Frame :=
  replicate 6 0xFF ++ replicate 6 2 ++ [8, 6, 0, 1, 8, 0, 6, 4, 0, 1] ++
    replicate 6 2 ++ [10, 0, 2, 2] ++ replicate 6 0 ++ [10, 0, 2, 15]

def questioned : Rolodex := rolodexSetIp {} ⟨10, 0, 2, 15⟩

theorem repeated_question_same :
    let r := deliverToRolodex 0 questioned arpQuestion
    r.pendingReply.isSome ∧
      (deliverToRolodex 0 r (arpQuestion ++ replicate 18 0)).book =
        (deliverToRolodex 0 r arpQuestion).book ∧
      (deliverToRolodex 0 r (arpQuestion ++ replicate 18 0)).pendingReply =
        (deliverToRolodex 0 r arpQuestion).pendingReply := by
  refine ⟨by decide +kernel, (padding_ignored_iff rfl rfl).mpr (.inr (.inr ⟨⟨?_, ?_, ?_⟩, ?_⟩))⟩
  · unfold RolodexEntry.Stale
    decide +kernel
  all_goals decide +kernel

theorem padded_question_unanswered :
    (deliverToRolodex 0 questioned arpQuestion).pendingReply =
        some (⟨10, 0, 2, 2⟩, ⟨2, 2, 2, 2, 2, 2⟩) ∧
      (deliverToRolodex 0 questioned (arpQuestion ++ replicate 18 0)).pendingReply = none := by
  decide +kernel

/-- The stack takes the frame for a TCP segment or a UDP datagram. -/
def StackAccepts (frame : Frame) (protocol : Byte) : Prop :=
  let p := frame.drop ethHeader
  let src := Ip4.read p 12
  let dst := Ip4.read p 16
  mailroomDeliver frame = some (.compass, p, Mac.read frame 6) ∧ compassCheck p = .accept ∧
    p.getD 9 0 = protocol ∧ (protocol = 6 ∧ conversationCheck (compassPayload p) src dst = .accept ∨
        protocol = 17 ∧ (postcardCheck (compassPayload p) src dst).1 = .accept)

def stackSighting (frame : Frame) (protocol : Byte) : Sighting :=
  let p := frame.drop ethHeader
  (if protocol = 6 then tcpSighting else udpSighting) (BitVec.ofNat 32 (frame.length - 4))
    (Ip4.read p 12).word (Ip4.read p 16).word (be16 (compassPayload p) 0)
    (be16 (compassPayload p) 2)

/-- The total length of the packet does not reach into the checksum of the frame. -/
def FitsBeforeTrailer (frame : Frame) : Prop :=
  ethHeader + (be16 (frame.drop ethHeader) 2).toNat + 4 ≤ frame.length

variable {protocol : Byte}

theorem compassCheck_accept {p : List Byte} (h : compassCheck p = .accept) :
    minIpHeader ≤ p.length ∧ p.getD 0 0 >>> 4 = 4 ∧ 20 ≤ ipHeaderLen p ∧
      (be16 p 2).toNat ≤ p.length ∧ ipHeaderLen p ≤ (be16 p 2).toNat ∧ be16 p 6 &&& 0x1FFF = 0 := by
  unfold compassCheck at h
  split_ifs at h with h1 h2 h3 h4 h5 h6 h7 h8
  unfold ipHeaderLen at h6 ⊢
  refine ⟨by omega, not_not.mp h2, by omega, by omega, by omega, ?_⟩
  by_contra hne
  exact h7 (.inl hne)

theorem ipHeaderLen_le (p : List Byte) : ipHeaderLen p ≤ 60 := by
  have hnibble : (p.getD 0 0 &&& 0x0F).toNat ≤ 15 := by
    exact Nat.and_le_right
  unfold ipHeaderLen
  omega

theorem be16_compassPayload {p : List Byte} {k : ℕ} (h : k + 2 ≤ (compassPayload p).length) :
    be16 (compassPayload p) k = be16 p (ipHeaderLen p + k) := by
  have hget : ∀ j < (compassPayload p).length,
      (compassPayload p).getD j 0 = p.getD (ipHeaderLen p + j) 0 := by
    intro j hj
    rw [compassPayload, length_take] at hj
    simp [compassPayload, lt_of_lt_of_le hj (Nat.min_le_left _ _)]
  rw [be16, be16, hget k (by omega), hget (k + 1) (by omega), Nat.add_assoc]

theorem StackAccepts.payload_length (h : StackAccepts frame protocol) :
    8 ≤ (compassPayload (frame.drop ethHeader)).length := by
  obtain ⟨-, -, -, ⟨-, h⟩ | ⟨-, h⟩⟩ := h
  · unfold conversationCheck tcpMinHeader at h
    split_ifs at h with hlen
    omega
  · unfold postcardCheck udpHeaderLen at h
    split_ifs at h with hlen
    all_goals omega

theorem ethertype_of_compass {payload : List Byte} {mac : Mac}
    (h : mailroomDeliver frame = some (.compass, payload, mac)) :
    be16 frame 12 = ethertypeIpv4 := by
  unfold mailroomDeliver at h
  dsimp only at h
  split_ifs at h
  obtain ⟨department, hfind, heq⟩ := map_eq_some_iff.mp h
  cases heq
  by_contra hne
  have hbeq : (be16 frame 12 == ethertypeIpv4) = false := by simpa using hne
  cases h6 : be16 frame 12 == ethertypeIpv6 <;> cases harp : be16 frame 12 == ethertypeArp <;>
    simp [departments, lookup_cons, h6, harp, hbeq] at hfind

structure Shown (frame : Frame) (n : ℕ) (d : ℕ → Byte) : Prop where
  length : n + 4 = frame.length
  bytes : ∀ i < n, d i = frame.getD i 0

namespace Shown

open Reads

variable {d : ℕ → Byte} {n k : ℕ}

section

variable (h : Shown frame n d)

include h

theorem get (hk : 14 + k < n) : d (14 + k) = (frame.drop ethHeader).getD k 0 := by
  rw [h.bytes _ hk]
  simp [ethHeader]

theorem run_be16 (hk : 14 + k + 1 < n) :
    (Observe.be16 (14 + k)).run d = be16 (frame.drop ethHeader) k := by
  rw [be16, ← h.get (by omega), ← h.get (by omega)]
  rfl

theorem run_beIpv4 (hk : 14 + k + 3 < n) :
    (Observe.beIpv4 (14 + k)).run d = (Ip4.read (frame.drop ethHeader) k).word := by
  rw [Ip4.word, Ip4.read, ← h.get (by omega), ← h.get (by omega), ← h.get (by omega),
    ← h.get (by omega)]
  rfl

theorem run_ethertype (hmail : ∃ payload mac,
    mailroomDeliver frame = some (.compass, payload, mac)) (hn : 14 ≤ n) :
    (Observe.be16 12).run d = ethertypeIpv4 := by
  obtain ⟨payload, mac, hmail⟩ := hmail
  rw [← ethertype_of_compass hmail, be16, ← h.bytes 12 (by omega), ← h.bytes 13 (by omega)]
  rfl

end

theorem observe_of_fits (hs : Shown frame n d) (h : StackAccepts frame protocol)
    (hfits : FitsBeforeTrailer frame) :
    (Observe.observe n (min n netobserveCaptureBytes)).run d =
      .recorded (stackSighting frame protocol) := by
  have hpayload := h.payload_length
  obtain ⟨hmail, hcheck, hproto, hhandler⟩ := h
  obtain ⟨-, hversion, hihl, htotal, hle, hfragment⟩ := compassCheck_accept hcheck
  have hlen := hs.length
  have heth : ethHeader = 14 := rfl
  have hcap : netobserveCaptureBytes = 80 := rfl
  unfold FitsBeforeTrailer at hfits
  unfold stackSighting
  have hsmall := ipHeaderLen_le (frame.drop ethHeader)
  have hbody : (compassPayload (frame.drop ethHeader)).length = _ :=
    length_take.trans (congrArg _ length_drop)
  have h12 := hs.run_ethertype ⟨_, _, hmail⟩ (by omega)
  have h14 := hs.get (k := 0) (by omega)
  have h16 := hs.run_be16 (k := 2) (by omega)
  have h20 := hs.run_be16 (k := 6) (by omega)
  have h23 := hs.get (k := 9) (by omega)
  have h26 := hs.run_beIpv4 (k := 12) (by omega)
  have h30 := hs.run_beIpv4 (k := 16) (by omega)
  have hsrc := hs.run_be16 (k := ipHeaderLen (frame.drop ethHeader) + 0) (by omega)
  have hdst := hs.run_be16 (k := ipHeaderLen (frame.drop ethHeader) + 2) (by omega)
  rw [← be16_compassPayload (by omega)] at hsrc hdst
  have hheader : ¬ (n < ethHeader ∨ min n netobserveCaptureBytes < ethHeader) := by omega
  have hshort : ¬ (n < ethHeader + 20 ∨ min n netobserveCaptureBytes < ethHeader + 20) := by omega
  have hpast : ¬ (n < ethHeader + ipHeaderLen (frame.drop ethHeader) ∨
      min n netobserveCaptureBytes < ethHeader + ipHeaderLen (frame.drop ethHeader)) := by omega
  set p := frame.drop ethHeader
  have htotals : ¬ ((be16 p 2).toNat < ipHeaderLen p ∨ n < ethHeader + (be16 p 2).toNat) := by omega
  have hports : ¬ ((be16 p 2).toNat - ipHeaderLen p < 4 ∨
    min n netobserveCaptureBytes < ethHeader + ipHeaderLen p + 4) := by omega
  unfold ipHeaderLen at *
  unfold Observe.observe Observe.observeIpv4 Observe.observeTransport
  simp only [run_ite, run_bind, run_pure, run_cell, h12, h14, h16, h23, h26, h30, h20, hversion,
    hfragment, hproto, hheader, hshort, hpast, htotals, hports, hihl.not_gt, if_false, if_true,
    ne_eq, not_true]
  rw [if_neg (by decide), ← hlen, Nat.add_sub_cancel]
  obtain ⟨rfl, -⟩ | ⟨rfl, -⟩ := hhandler
  · rw [← hsrc, ← hdst]
    rfl
  · rw [if_pos (.inr rfl), if_neg (by decide), if_neg (by decide), ← hsrc, ← hdst]
    rfl

theorem observe_of_not_fits (hs : Shown frame n d) (h : StackAccepts frame protocol)
    (hfits : ¬ FitsBeforeTrailer frame) :
    ∃ reason, (Observe.observe n (min n netobserveCaptureBytes)).run d = .malformed reason := by
  obtain ⟨hmail, hcheck, -, -⟩ := h
  obtain ⟨-, hversion, hihl, -, -, -⟩ := compassCheck_accept hcheck
  have hlen := hs.length
  have heth : ethHeader = 14 := rfl
  unfold FitsBeforeTrailer at hfits
  unfold Observe.observe
  split_ifs with hheader
  · exact ⟨_, rfl⟩
  have h12 := hs.run_ethertype ⟨_, _, hmail⟩ (by omega)
  simp only [run_bind, h12, run_ite]
  rw [if_neg (by decide), if_pos trivial, Observe.observeIpv4, run_ite]
  split_ifs with hshort
  · exact ⟨_, rfl⟩
  have h14 := hs.get (k := 0) (by omega)
  have h16 := hs.run_be16 (k := 2) (by omega)
  unfold ipHeaderLen at *
  simp only [run_bind, run_cell, run_ite, h14, h16, hversion, hihl.not_gt, ne_eq, not_true,
    if_false]
  split_ifs with hpast htotals
  · exact ⟨_, rfl⟩
  · exact ⟨_, rfl⟩
  · omega

end Shown

theorem shown_observedPart (h : StackAccepts frame protocol) :
    Shown frame (observedPart frame).length ((observedPart frame).getD · 0) := by
  have hmin := (compassCheck_accept h.2.1).1
  rw [length_drop] at hmin
  have hmin' : minIpHeader = 20 := rfl
  rw [observedPart, if_pos (by omega)]
  constructor
  · rw [length_take]
    omega
  · intro i hi
    rw [length_take] at hi
    rw [getD_eq_getElem?_getD, getElem?_take_of_lt (by omega), ← getD_eq_getElem?_getD]

/-- An accepted frame is recorded exactly if its packet ends before the checksum of the frame. -/
theorem observer_sees_accepted_iff (h : StackAccepts frame protocol) (c : Capture)
    {s : Observation} (hcount : s.observer.count ≠ 0)
    (hslot : s.observer.queue s.observer.tail = c.fill .rx (observedPart frame)) :
    (∃ s', s.drainRound now = some s' ∧
      (s'.watch, s'.ring) = netwatchEvent now .rx (stackSighting frame protocol) s.watch s.ring ∧
        s'.observer.stats.malformed = s.observer.stats.malformed) ↔ FitsBeforeTrailer frame := by
  have hshown := shown_observedPart h
  have hverdict := (Capture.of_fill c .rx (observedPart frame)).verdict_eq
  unfold Observation.drainRound
  simp only [hcount, if_false, some.injEq, exists_eq_left', hslot, hverdict]
  unfold Arrival.verdict Arrival.caplen Observation.conclude
  by_cases hfits : FitsBeforeTrailer frame
  · rw [hshown.observe_of_fits h hfits]
    exact iff_of_true ⟨rfl, rfl⟩ hfits
  · obtain ⟨reason, hreason⟩ := hshown.observe_of_not_fits h hfits
    rw [hreason]
    refine iff_of_false (fun hsame => ?_) hfits
    exact absurd hsame.2 (by simp)

def frameOf64 (len : ℕ) : Frame :=
  let body := udpHeader 53 50053 len 0 ++ replicate 18 0 ++ [33, 50, 222, 218]
  replicate 12 2 ++ [8, 0] ++ ipv4Packet 17 ⟨10, 0, 2, 2⟩ ⟨10, 0, 2, 15⟩ (body.take len) ++
    body.drop len

def captureOf (frame : Frame) : Observation :=
  ⟨⟨fun _ => Capture.fill ⟨.rx, 0, 0, fun _ => 0⟩ .rx (observedPart frame), 0, 0, 1, {}⟩,
    netwatchInit, .zero⟩

theorem short_datagram_seen : ∃ s', (captureOf (frameOf64 26)).drainRound 0 = some s' ∧
    (s'.watch, s'.ring) = netwatchEvent 0 .rx (stackSighting (frameOf64 26) 17) netwatchInit .zero ∧
      s'.observer.stats.malformed = 0 :=
  (observer_sees_accepted_iff
    ⟨by decide +kernel, by decide +kernel, by decide +kernel, .inr ⟨rfl, by decide +kernel⟩⟩
    ⟨.rx, 0, 0, fun _ => 0⟩ (by decide) rfl).mpr (by unfold FitsBeforeTrailer; decide +kernel)

theorem long_datagram_malformed : StackAccepts (frameOf64 30) 17 ∧
    ((captureOf (frameOf64 30)).drainRound 0).map (·.observer.stats.malformed) = some 1 :=
  ⟨⟨by decide +kernel, by decide +kernel, by decide +kernel, .inr ⟨rfl, by decide +kernel⟩⟩,
    by decide +kernel⟩

end Aevros
