import Aevros.Wire.Segment

/-! # The extension headers of an IPv6 packet

`compass6_handle` steps over the extension headers that it knows before it hands the rest of the
payload on. Their lengths are chosen by the sender, and the loop counts in 16-bit numbers.
-/

namespace Aevros

def minIp6Header : ℕ := 40
def maxExtHeaders : ℕ := 8

def nextHeaderHopByHop : Byte := 0
def nextHeaderRouting : Byte := 43
def nextHeaderFragment : Byte := 44
def nextHeaderEsp : Byte := 50
def nextHeaderAh : Byte := 51
def nextHeaderDestOpts : Byte := 60

inductive Ip6Verdict
  | accept
  | rejectTooShort
  | rejectBadVersion
  | rejectLengthMismatch
  deriving DecidableEq

def payloadLen6 (p : List Byte) : ℕ := (be16 p 4).toNat

def compass6Check (p : List Byte) : Ip6Verdict :=
  if p.length < minIp6Header then .rejectTooShort
  else if p.getD 0 0 >>> 4 ≠ 6 then .rejectBadVersion
  else if p.length < minIp6Header + payloadLen6 p then .rejectLengthMismatch
  else .accept

/-- The variables of the loop. The cursor is an offset into the packet. -/
structure Walk where
  nextHeader : Byte
  cursor : ℕ
  remaining : ℕ
  seenHeaders : ℕ := 0
  firstHeader : Bool := true
  /-- History: the lengths of the headers that were stepped over. -/
  skipped : List ℕ := []

inductive WalkError
  | outOfPosition
  | tooMany
  | truncated
  | tooLong
  deriving DecidableEq

variable {p : List Byte} {w w' : Walk}

namespace Walk

def start (p : List Byte) : Walk where
  nextHeader := p.getD 6 0
  cursor := minIp6Header
  remaining := payloadLen6 p

def goesOn (w : Walk) : Bool :=
  w.nextHeader = nextHeaderHopByHop || w.nextHeader = nextHeaderRouting ||
    w.nextHeader = nextHeaderDestOpts

/-- `(uint16_t)((cursor[1] + 1) * 8)`. -/
def hdrLen (p : List Byte) (w : Walk) : ℕ := ((p.getD (w.cursor + 1) 0).toNat + 1) * 8 % 65536

def iterate (p : List Byte) (w : Walk) : Except WalkError Walk :=
  if w.nextHeader = nextHeaderHopByHop ∧ w.firstHeader = false then .error .outOfPosition
  else if maxExtHeaders < w.seenHeaders + 1 then .error .tooMany
  else if w.remaining < 2 then .error .truncated
  else if w.remaining < w.hdrLen p then .error .tooLong
  else .ok {
    nextHeader := p.getD w.cursor 0
    cursor := w.cursor + w.hdrLen p
    remaining := (w.remaining + 65536 - w.hdrLen p) % 65536
    seenHeaders := w.seenHeaders + 1
    firstHeader := false
    skipped := w.hdrLen p :: w.skipped }

/-- At most `n` iterations of the loop; `none` if it has not ended after them. -/
def loop (p : List Byte) : ℕ → Walk → Option (Except WalkError Walk)
  | 0, w => if w.goesOn then none else some (.ok w)
  | n + 1, w =>
    if w.goesOn then
      match w.iterate p with
      | .error e => some (.error e)
      | .ok w => loop p n w
    else some (.ok w)

def slice (p : List Byte) (w : Walk) : List Byte := (p.drop w.cursor).take w.remaining

end Walk

/-- What becomes of the packet after the loop. -/
inductive Compass6Outcome
  | rejected
  | fragment (slice : List Byte)
  | dispatch (nextHeader : Byte) (slice : List Byte)

/-- The end of `compass6_handle`. -/
def Walk.outcome (p : List Byte) (w : Walk) : Compass6Outcome :=
  if w.nextHeader = nextHeaderAh ∨ w.nextHeader = nextHeaderEsp then .rejected
  else if w.nextHeader = nextHeaderFragment then .fragment (w.slice p)
  else .dispatch w.nextHeader (w.slice p)

def Compass6Outcome.slice? : Compass6Outcome → Option (List Byte)
  | rejected => none
  | fragment slice | dispatch _ slice => some slice

/-- The walk has come to `w` at the head of the loop. -/
inductive Walk.Reaches (p : List Byte) : Walk → Prop
  | start : Reaches p (.start p)
  | next {w w' : Walk} : Reaches p w → w.goesOn = true → w.iterate p = .ok w' → Reaches p w'

namespace Walk

theorem iterate_eq_ok (h : w.iterate p = .ok w') : w.seenHeaders < maxExtHeaders ∧
    w.hdrLen p ≤ w.remaining ∧ w'.cursor = w.cursor + w.hdrLen p ∧
    w'.remaining = (w.remaining + 65536 - w.hdrLen p) % 65536 ∧
    w'.seenHeaders = w.seenHeaders + 1 ∧ w'.skipped = w.hdrLen p :: w.skipped := by
  unfold iterate at h
  split_ifs at h with hpos hmany hshort hlong
  cases h
  exact ⟨by omega, by omega, rfl, rfl, rfl, rfl⟩

/-- The slice is what is left of the payload after the headers that were skipped. -/
structure Inside (p : List Byte) (w : Walk) : Prop where
  cursor : w.cursor = minIp6Header + w.skipped.sum
  remaining : w.remaining + w.skipped.sum = payloadLen6 p
  seen : w.seenHeaders ≤ maxExtHeaders

theorem Inside.next (h : w.Inside p) (hw : w.iterate p = .ok w') :
    w'.Inside p ∧ w'.remaining + w.hdrLen p = w.remaining := by
  obtain ⟨hfew, hle, hc, hr, hseen, hs⟩ := iterate_eq_ok hw
  have hlt : payloadLen6 p < 65536 := (be16 p 4).isLt
  have hrem := h.remaining
  have hexact : w'.remaining + w.hdrLen p = w.remaining := by rw [hr]; omega
  refine ⟨⟨?_, ?_, by omega⟩, hexact⟩
  · rw [hc, hs, List.sum_cons, h.cursor]
    omega
  · rw [hs, List.sum_cons]
    omega

theorem Reaches.inside (h : Reaches p w) : w.Inside p := by
  induction h with
  | start => exact ⟨rfl, rfl, Nat.zero_le _⟩
  | next _ _ hw ih => exact (ih.next hw).1

theorem Reaches.loop_ends {n : ℕ} (hw : Reaches p w) (hn : maxExtHeaders < w.seenHeaders + n) :
    ∃ r, w.loop p n = some r ∧ ∀ w', r = .ok w' → Reaches p w' := by
  induction n generalizing w with
  | zero => exact absurd hn (Nat.not_lt.mpr hw.inside.seen)
  | succ n ih =>
    cases hg : w.goesOn with
    | false => exact ⟨.ok w, by simp [loop, hg], by rintro _ ⟨⟩; exact hw⟩
    | true =>
      rw [loop, if_pos hg]
      cases hi : w.iterate p with
      | error e => exact ⟨.error e, rfl, by rintro _ ⟨⟩⟩
      | ok w' =>
        obtain ⟨-, -, -, -, hseen, -⟩ := iterate_eq_ok hi
        exact ih (hw.next hg hi) (by omega)

end Walk

/-- Extension headers are skipped in at most nine rounds, and what is handed on is inside. -/
theorem extension_headers_skipped (p : List Byte) (h : compass6Check p = .accept) :
    (∀ w, Walk.Reaches p w → minIp6Header ≤ w.cursor ∧
        w.cursor + w.remaining = minIp6Header + payloadLen6 p ∧ w.cursor + w.remaining ≤ p.length ∧
        ∀ w', w.iterate p = .ok w' → w'.remaining + w.hdrLen p = w.remaining) ∧
    ∃ r, (Walk.start p).loop p 9 = some r ∧ ∀ w, r = .ok w → Walk.Reaches p w ∧
      ∀ s, (w.outcome p).slice? = some s →
        s <:+ (p.drop minIp6Header).take (payloadLen6 p) ∧
          s.length = payloadLen6 p - w.skipped.sum := by
  have hlen : minIp6Header + payloadLen6 p ≤ p.length := by
    unfold compass6Check at h
    split_ifs at h
    omega
  refine ⟨fun w hw => ?_, ?_⟩
  · have hcursor := hw.inside.cursor
    have hremaining := hw.inside.remaining
    exact ⟨by omega, by omega, by omega, fun w' hi => (hw.inside.next hi).2⟩
  · obtain ⟨r, hr, hok⟩ := Walk.Reaches.start.loop_ends (by decide : maxExtHeaders < 0 + 9)
    refine ⟨r, hr, fun w hw => ⟨hok w hw, fun s hs => ?_⟩⟩
    have hcursor := (hok w hw).inside.cursor
    have hremaining := (hok w hw).inside.remaining
    obtain rfl : w.slice p = s := by
      unfold Walk.outcome at hs
      split_ifs at hs
      · cases hs
      · exact Option.some.inj hs
      · exact Option.some.inj hs
    have hslice : w.slice p = ((p.drop minIp6Header).take (payloadLen6 p)).drop w.skipped.sum := by
      rw [Walk.slice, hcursor, List.drop_take, List.drop_drop, ← hremaining, Nat.add_sub_cancel]
    refine ⟨hslice ▸ List.drop_suffix .., ?_⟩
    rw [hslice, List.length_drop, List.length_take, List.length_drop]
    omega

/-- A packet with one empty header of destination options before a TCP payload of two bytes. -/
def optionsPacket : List Byte :=
  [0x60, 0, 0, 0, 0, 10, 60, 64] ++ List.replicate 32 0 ++ [6, 0, 0, 0, 0, 0, 0, 0] ++ [1, 2]

theorem optionsPacket_skipped : ∃ r, (Walk.start optionsPacket).loop optionsPacket 9 = some r := by
  obtain ⟨-, r, hr, -⟩ := extension_headers_skipped optionsPacket (by decide)
  exact ⟨r, hr⟩

end Aevros
