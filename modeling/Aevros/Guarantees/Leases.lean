import Aevros.Library.Runs
import Aevros.Services.Landlord

/-! # What the DHCP client asks for, takes and keeps

A request lacks a length byte. Replies are read as their options say if pads come in pairs, and a
lease is renewed on time while its deadline does not wrap.
-/

namespace Aevros

open Runs Reads Tagged List BitVec

/-- The options are a list from which the type, the address and the server are learnt. -/
def AsksProperly (t : Terms) : Prop :=
  ∃ items rest, (∀ x ∈ items, x.WellFormed) ∧ write items ++ 255 :: rest = requestOptions t ∧
    .value 53 [3] ∈ items ∧ .value 50 t.offeredIp.bytes ∈ items ∧ .value 54 t.serverIp.bytes ∈ items

variable {t : Terms}

theorem AsksProperly.false (h : AsksProperly t) : False := by
  obtain ⟨items, rest, hwf, heq, -, -, hserver⟩ := h
  obtain ⟨l, rfl, -, h⟩ := value_of_write_eq hwf (by decide) (by decide) heq
  obtain ⟨l, rfl, -, h⟩ := value_of_write_eq (fun x hx => hwf x (.tail _ hx)) (by decide)
    (by decide) h
  obtain ⟨l, rfl, hle, h⟩ := value_of_write_eq (fun x hx => hwf x (.tail _ (.tail _ hx)))
    (by decide) (by decide) h
  -- The third option takes the first byte of the server's address for its length.
  simp only [mem_cons, Item.value.injEq] at hserver
  rcases hserver with hserver | hserver | hserver | hserver
  · exact absurd hserver.1 (by decide)
  · exact absurd hserver.1 (by decide)
  · have hbytes : t.serverIp.bytes = [t.serverIp.b, t.serverIp.c, t.serverIp.d, 255] :=
      hserver.2.trans (take_of_length_le ?_)
    · simp only [Ip4.bytes, cons.injEq] at hbytes
      rw [hbytes.1, hbytes.2.1, hbytes.2.2.1, hbytes.2.2.2.1] at hle
      exact absurd hle (by decide)
    · have hlen := congrArg length hserver.2
      rw [length_take] at hlen
      exact min_eq_right_iff.mp hlen.symm
  · have hlen := congrArg length h
    have hle := length_bytes_le hserver
    simp [Item.bytes, Ip4.bytes] at hlen hle
    omega

/-- No request names its server: the length of the address is missing. -/
theorem no_request_asks_properly (t : Terms) : ¬ AsksProperly t := AsksProperly.false

theorem sample_request_improper :
    ¬ AsksProperly { offeredIp := ⟨10, 0, 2, 15⟩, serverIp := ⟨10, 0, 2, 2⟩ } := AsksProperly.false

/-- The length is one that the kind of option may have. -/
def Lawful : Item → Prop
  | .pad => True
  | .value code v => (code = 53 → v.length = 1) ∧
      (code = 1 ∨ code = 51 ∨ code = 54 → v.length = 4) ∧
        (code = 3 ∨ code = 6 → 0 < v.length ∧ 4 ∣ v.length)

variable {header rest packet : List Byte} {items : List Item}

def ReadRight (t : Terms) (header : List Byte) (items : List Item) (rest : List Byte) : Prop :=
  let packet := header ++ (write items ++ 255 :: rest)
  let parse := parseOptions packet.length t
  Within (packet.getD · 0) packet.length parse ∧ ∃ ip, parse.run (packet.getD · 0) =
      Terms.told (0, { t with offeredIp := ip }) fun code => valueOf code items

theorem Lawful.leastLen_le {code : Byte} {v : List Byte} (h : Lawful (.value code v))
    (hcode : code ∈ ([53, 54, 1, 3, 6, 51] : List Byte)) : leastLen code ≤ v.length := by
  obtain ⟨htype, hfour, haddr⟩ := h
  unfold leastLen
  simp only [mem_cons, not_mem_nil, or_false] at hcode
  rcases hcode with rfl | rfl | rfl | rfl | rfl | rfl <;> simp at htype hfour haddr ⊢ <;> omega

theorem mem_of_valueOf {code : Byte} {v : List Byte} (h : valueOf code items = some v) :
    .value code v ∈ items := by
  fun_induction valueOf code items with
  | case1 => simp at h
  | case2 l ih => exact .tail _ (ih h)
  | case3 c u l ih =>
    rw [Option.or_eq_some_iff] at h
    obtain h | ⟨-, h⟩ := h
    · exact .tail _ (ih h)
    · simp only [Option.ite_none_right_eq_some, Option.some.injEq] at h
      simp [h]

/-- A reply is read as its options say if the pads among them come in pairs, or if it is so short
that it has no option of interest. -/
theorem options_read_right (hheader : header.length = dhcpFixedLen)
    (hwf : ∀ x ∈ items, x.WellFormed) (hlawful : ∀ x ∈ items, Lawful x)
    (hpads : (header ++ (write items ++ 255 :: rest)).length < dhcpFixedLen + 4 ∨
      PadsPaired items) : ReadRight t header items rest := by
  obtain ⟨hin, hrun⟩ := parseOptions_spec (header ++ (write items ++ 255 :: rest)) t
  refine ⟨hin, ?_⟩
  rw [hrun, drop_left' hheader]
  split_ifs with hlen
  · refine ⟨t.offeredIp, ?_⟩
    change Terms.told (0, t) (fun _ => none) = _
    apply told_congr
    intro code hcode
    cases hv : valueOf code items with
    | none => rfl
    | some v =>
      have hmem := mem_of_valueOf hv
      have hleast := (hlawful _ hmem).leastLen_le hcode
      have hle := length_bytes_le hmem
      have hpos : 0 < leastLen code := by unfold leastLen; split_ifs <;> decide
      simp [Item.bytes, hheader] at hlen hle
      omega
  · refine ⟨Ip4.read (header ++ (write items ++ 255 :: rest)) 16, ?_⟩
    apply told_congr
    intro code hcode
    have hzero : code ≠ 0 := by
      rintro rfl
      exact absurd hcode (by decide)
    have hpads := hpads.resolve_left hlen
    exact lastOf_scan_write hwf hpads hzero fun v hv => (hlawful _ hv).leastLen_le hcode

theorem sample_reply_read_right : ReadRight {} (replicate 240 0)
      [.value 53 [5], .pad, .pad, .value 51 [0, 0, 14, 16]] [] := by
  refine options_read_right rfl ?_ ?_ (.inr trivial) <;>
    simp [Item.WellFormed, Lawful]

theorem lease_behind_pad_lost : ∃ items, (∀ x ∈ items, x.WellFormed) ∧ (∀ x ∈ items, Lawful x) ∧
    ¬ ReadRight {} (List.replicate 240 0) items [] := by
  refine ⟨[.value 53 [5], .pad, .value 51 [0, 0, 14, 16]], ?_, ?_, ?_⟩
  · simp [Item.WellFormed]
  · simp [Lawful]
  rintro ⟨-, ip, hrun⟩
  have hread := (parseOptions_spec _ _).2.symm.trans hrun
  have hheader : (List.replicate 240 (0 : Byte)).length = dhcpFixedLen := List.length_replicate
  rw [if_neg (by rw [length_append, hheader]; decide), drop_left' hheader] at hread
  have hlease : (optionIn _ 51).elim (0 : Word) (fun v => (Ip4.read v 0).word) = 3600 :=
    congrArg (·.2.leaseSeconds) hread
  simp [write, Item.bytes, optionIn, scan, Tagged.lastOf] at hlease

def Landlord.ActsOn (l : Landlord) (ourMac : Mac) (packet : List Byte) : Prop :=
  l.replyIsOurs ourMac packet ∧ ((l.state = .discovering ∧ (l.heed packet).1 = 2) ∨
      (l.state = .requesting ∧ ((l.heed packet).1 = 5 ∨ (l.heed packet).1 = 6)))

def Restates (t : Terms) (packet : List Byte) : Prop :=
  let value := optionIn (packet.drop dhcpFixedLen)
  Ip4.read packet 16 = t.offeredIp ∧ (∀ v ∈ value 54, Ip4.read v 0 = t.serverIp) ∧
    (∀ v ∈ value 1, Ip4.read v 0 = t.subnetMask) ∧ (∀ v ∈ value 3, Ip4.read v 0 = t.routerIp) ∧
      (∀ v ∈ value 6, Ip4.read v 0 = t.dnsServerIp) ∧
        ∀ v ∈ value 51, (Ip4.read v 0).word = t.leaseSeconds

namespace Landlord

variable {l : Landlord} {ourMac : Mac} {now draw n d : Word}

theorem keepTime_keeps : (l.keepTime ourMac now draw).1.terms = l.terms ∧
    (l.keepTime ourMac now draw).1.leaseStartTick = l.leaseStartTick := by
  unfold keepTime
  split_ifs <;> exact ⟨rfl, rfl⟩

theorem landlordTick_of_not_actsOn (h : ¬ l.ActsOn ourMac packet) :
    (l.landlordTick ourMac packet n d).1.leaseStartTick = l.leaseStartTick ∧
      (l.landlordTick ourMac packet n d).1.terms =
        if l.replyIsOurs ourMac packet then (l.heed packet).2 else l.terms := by
  unfold landlordTick
  simp only [ActsOn] at h
  split_ifs <;> grind [keepTime_keeps]

theorem heed_eq_iff (h : l.replyIsOurs ourMac packet) :
    (l.heed packet).2 = l.terms ↔ Restates l.terms packet := by
  have helim : ∀ {β : Type} {f : List Byte → β} {old : β} (x : Option (List Byte)),
      x.elim old f = old ↔ ∀ v ∈ x, f v = old := by
    intro β f old x
    cases x <;> simp
  simp only [replyIsOurs, decide_eq_true_eq] at h
  rw [heed, (parseOptions_spec packet l.terms).2, if_neg (by omega)]
  unfold Restates
  cases l.terms
  simp only [Terms.told, Terms.mk.injEq, helim]

/-- An ignored packet keeps the terms exactly if it is no reply to us or tells nothing new. -/
theorem ignored_keeps_terms_iff (h : ¬ l.ActsOn ourMac packet) :
    ((l.landlordTick ourMac packet now draw).1.terms = l.terms ∧
      (l.landlordTick ourMac packet now draw).1.renewAt = l.renewAt) ↔
        (l.replyIsOurs ourMac packet → Restates l.terms packet) := by
  obtain ⟨hstart, hterms⟩ := landlordTick_of_not_actsOn (n := now) (d := draw) h
  have hrenew (heq : (l.landlordTick ourMac packet now draw).1.terms = l.terms) :
      (l.landlordTick ourMac packet now draw).1.renewAt = l.renewAt := by
    simp only [renewAt, hstart, heq]
  rw [and_iff_left_of_imp hrenew, hterms]
  split_ifs with hours
  · simpa [hours] using heed_eq_iff hours
  · simp [hours]

def boundClient : Landlord := { state := .bound, xid := 7, terms.leaseSeconds := 3600 }

theorem not_actsOn_boundClient : ¬ boundClient.ActsOn ourMac packet := by
  simp [ActsOn, boundClient]

/-- An offer to `boundClient` of the lease time that the bytes spell. -/
def lateOffer (lease : List Byte) : List Byte :=
  2 :: (buildHeader 7 {} .zero).tail ++ (write [.value 53 [2], .value 51 lease] ++ [255])

theorem restated_terms_kept : boundClient.replyIsOurs {} (lateOffer [0, 0, 14, 16]) = true ∧
    (boundClient.landlordTick {} (lateOffer [0, 0, 14, 16]) 0 0).1.terms = boundClient.terms := by
  refine ⟨by decide +kernel, ((ignored_keeps_terms_iff not_actsOn_boundClient).mpr fun _ => ?_).1⟩
  have hdrop : (lateOffer [0, 0, 14, 16]).drop dhcpFixedLen =
      [53, 1, 2, 51, 4, 0, 0, 14, 16, 255] := by
    decide +kernel
  rw [Restates, hdrop]
  refine ⟨by decide +kernel, ?_⟩
  simp [optionIn, leastLen, scan, Tagged.lastOf, Ip4.read, Ip4.word, boundClient]

theorem late_offer_changes_lease : ¬ boundClient.ActsOn {} (lateOffer [0, 0, 0, 60]) ∧
    (boundClient.landlordTick {} (lateOffer [0, 0, 0, 60]) 0 0).1.terms.leaseSeconds = 60 := by
  refine ⟨not_actsOn_boundClient, ?_⟩
  have hdrop : (lateOffer [0, 0, 0, 60]).drop dhcpFixedLen =
      [53, 1, 2, 51, 4, 0, 0, 0, 60, 255] := by
    decide +kernel
  rw [(landlordTick_of_not_actsOn not_actsOn_boundClient).2, if_pos (by decide +kernel), heed,
    (parseOptions_spec _ boundClient.terms).2, if_neg (by decide +kernel), hdrop]
  simp [Terms.told, optionIn, leastLen, scan, Tagged.lastOf, Ip4.read, Ip4.word]

structure Call where
  tick : ℕ
  packet : List Byte
  draw : Word

def call (ourMac : Mac) (l : Landlord) (c : Call) : Landlord :=
  (l.landlordTick ourMac c.packet (BitVec.ofNat 32 c.tick) c.draw).1

/-- Call and deadline lie between the same wraps of the tick counter, and no reply is waiting. -/
def OnTime (ourMac : Mac) (start deadline : ℕ) (l : Landlord) (c : Call) : Prop :=
  start ≤ c.tick ∧ c.tick / 2 ^ 32 = deadline / 2 ^ 32 ∧ l.replyIsOurs ourMac c.packet = false

variable {start deadline : ℕ} {c : Call} {calls : List Call}

theorem call_of_discovering (h : l.replyIsOurs ourMac c.packet = false)
    (hstate : l.state = .discovering) : (l.call ourMac c).state = .discovering := by
  unfold call landlordTick keepTime
  split_ifs <;> simp_all [sendDiscover]

theorem call_of_bound (hstart : l.leaseStartTick = BitVec.ofNat 32 start)
    (hfits : l.terms.leaseSeconds.toNat * 100 < 2 ^ 32) (hstate : l.state = .bound)
    (h : OnTime ourMac start (start + l.terms.leaseSeconds.toNat * 50) l c) :
    if start + l.terms.leaseSeconds.toNat * 50 ≤ c.tick then
      (l.call ourMac c).state = .discovering
    else l.call ourMac c = l := by
  obtain ⟨hafter, hturn, hnone⟩ := h
  have hdue : l.renewAt ≤ BitVec.ofNat 32 c.tick ↔
      start + l.terms.leaseSeconds.toNat * 50 ≤ c.tick := by
    have hhalf : (l.terms.leaseSeconds * pitHz * 1 / 2).toNat =
        l.terms.leaseSeconds.toNat * 50 := by
      change l.terms.leaseSeconds.toNat * 100 % 2 ^ 32 * 1 % 2 ^ 32 / 2 = _
      omega
    rw [renewAt, hstart, le_def, toNat_add, hhalf, toNat_ofNat, toNat_ofNat]
    omega
  unfold call landlordTick keepTime
  simp [hnone, hstate, hdue]
  split_ifs <;> rfl

theorem run_of_discovering (hstate : l.state = .discovering)
    (h : Along (call ourMac) (OnTime ourMac start deadline) l calls) :
    (run (call ourMac) l calls).state = .discovering :=
  h.run_invariant (I := fun l => l.state = .discovering)
    (fun _ _ hs hc => call_of_discovering hc.2.2 hs) hstate

theorem run_of_bound (hstart : l.leaseStartTick = BitVec.ofNat 32 start)
    (hfits : l.terms.leaseSeconds.toNat * 100 < 2 ^ 32) (hstate : l.state = .bound)
    (hdeadline : deadline = start + l.terms.leaseSeconds.toNat * 50)
    (h : Along (call ourMac) (OnTime ourMac start deadline) l calls) :
    (run (call ourMac) l calls).state = .bound ↔ ∀ c ∈ calls, c.tick < deadline := by
  subst hdeadline
  induction calls with
  | nil => simp [hstate]
  | cons c calls ih =>
    have hcall := call_of_bound hstart hfits hstate h.1
    rw [run_cons, forall_mem_cons]
    split_ifs at hcall with hdue
    · simp [run_of_discovering hcall h.2, hdue]
    · have hrest := h.2
      rw [hcall] at hrest ⊢
      rw [ih hrest, and_iff_right (by omega)]

/-- The client is bound until the first call at which half of the lease is over. -/
theorem renews_at_half_lease (start : ℕ) (hlease : l.terms.leaseSeconds ≠ 0)
    (hfits : l.terms.leaseSeconds.toNat * 100 < 2 ^ 32)
    (h : Along (call ourMac) (OnTime ourMac start (start + l.terms.leaseSeconds.toNat * 50))
      (l.applyLease (BitVec.ofNat 32 start)).1 calls) :
    (run (call ourMac) (l.applyLease (BitVec.ofNat 32 start)).1 calls).state = .bound ↔
      ∀ c ∈ calls, c.tick < start + l.terms.leaseSeconds.toNat * 50 := by
  have hkept : (l.applyLease (BitVec.ofNat 32 start)).1.terms.leaseSeconds = l.terms.leaseSeconds :=
    if_neg hlease
  exact run_of_bound rfl (hkept ▸ hfits) rfl (by rw [hkept]) h

theorem minute_lease_renewed : (run (call {}) ((applyLease { terms.leaseSeconds := 60 } 5).1)
      [⟨3004, [], 1⟩, ⟨3005, [], 2⟩]).state = .bound ↔
        ∀ c ∈ [(⟨3004, [], 1⟩ : Call), ⟨3005, [], 2⟩], c.tick < 5 + 60 * 50 :=
  renews_at_half_lease (l := { terms.leaseSeconds := 60 }) 5 (by decide) (by decide)
    (⟨⟨by decide, rfl, rfl⟩, ⟨by decide, rfl, rfl⟩, trivial⟩)

theorem long_lease_renewed_at_once :
    (run (call {}) ((applyLease { terms.leaseSeconds := 42949673 } 5).1)
      [⟨7, [], 1⟩]).state ≠ .bound := by
  decide

end Landlord

end Aevros
