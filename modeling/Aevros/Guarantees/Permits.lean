import Aevros.Library.Keyed
import Aevros.Library.Runs
import Aevros.Library.Wrap
import Aevros.Office.Transmit

/-! # Passes and sends

Every send of Bailiff uses up one pass for a frame of the same length and checksum, and no pass is
used twice. A pass of a whole turn of the counter looks fresh.
-/

namespace Aevros

open Runs HallPass Keyed Bailiff Function List

def HallPass.key (p : HallPass) : Option Word := tag p.inUse p.passId

theorem HallPass.key_eq_some_iff {p : HallPass} {passId : Word} :
    p.key = some passId ↔ p.inUse = true ∧ p.passId = passId := tag_eq_some_iff

def HallPass.Valid (p : HallPass) (now : Word) : Prop :=
  p.inUse = true ∧ now - p.issuedAt ≤ bailiffPassTimeoutTicks

namespace Bailiff

variable {b : Bailiff} {now passId : Word} {i : Fin bailiffMaxPasses}

theorem findPass_eq (b : Bailiff) (passId : Word) :
    b.findPass passId = find HallPass.key b.passes passId :=
  find_tag HallPass.inUse HallPass.passId b.passes passId

theorem freePass_eq (b : Bailiff) : b.freePass = free key b.passes :=
  free_tag inUse passId b.passes

theorem shed_reclaimExpired (b : Bailiff) (now : Word) : Shed key
    (HallPass.Valid · now) b.passes (b.reclaimExpired now).passes := by
  constructor
  · intro i h
    refine if_neg fun hc => ?_
    rw [Bool.and_eq_true, decide_eq_true_eq] at hc
    exact BitVec.not_lt.mpr h.2 hc.2
  · intro i h
    rw [key, tag_eq_none_iff]
    unfold reclaimExpired
    dsimp only
    split_ifs with hc
    · rfl
    · refine Bool.eq_false_iff.mpr fun hu => h ⟨hu, BitVec.not_lt.mp fun hlt => hc ?_⟩
      rw [hu, Bool.true_and, decide_eq_true_eq]
      exact hlt

theorem reclaimExpired_of_valid (h : (b.passes i).Valid now) :
    (b.reclaimExpired now).passes i = b.passes i := (shed_reclaimExpired b now).kept i h

theorem reclaimExpired_inUse :
    ((b.reclaimExpired now).passes i).inUse = true ↔ (b.passes i).Valid now := by
  constructor
  · intro h
    by_contra hv
    have hgone := tag_eq_none_iff.mp ((shed_reclaimExpired b now).gone i hv)
    cases hgone.symm.trans h
  · intro h
    rw [reclaimExpired_of_valid h]
    exact h.1

theorem reclaimExpired_key : ((b.reclaimExpired now).passes i).key = some passId ↔
    (b.passes i).Valid now ∧ (b.passes i).passId = passId := by
  rw [(shed_reclaimExpired b now).key_iff, key_eq_some_iff]
  exact and_congr_right fun h => and_iff_right h.1

theorem unique_reclaimExpired (hu : Unique key b.passes) (now : Word) :
    Unique key (b.reclaimExpired now).passes :=
  (shed_reclaimExpired b now).unique hu

end Bailiff

variable {o : Office} {passId : Word} {frame : Frame}

/-- Presenting the pass with the frame calls the driver. -/
def Office.attempts (o : Office) (passId : Word) (frame : Frame) : Bool :=
  match (o.bailiff.reclaimExpired o.ticks).findPass passId with
  | none => false
  | some i => ((o.bailiff.reclaimExpired o.ticks).passes i).declaredLen = frame.length ∧
      ((o.bailiff.reclaimExpired o.ticks).passes i).contentChecksum = checksum frame

theorem bailiffPresentPass_of_refused (h : o.attempts passId frame = false) :
    bailiffPresentPass o passId frame =
      (false, { o with bailiff := o.bailiff.reclaimExpired o.ticks }) := by
  unfold Office.attempts at h
  unfold bailiffPresentPass
  dsimp only
  cases hf : (o.bailiff.reclaimExpired o.ticks).findPass passId with
  | none => rfl
  | some i =>
    rw [hf] at h
    dsimp only at h ⊢
    rw [decide_eq_false_iff_not, not_and] at h
    by_cases hlen : ((o.bailiff.reclaimExpired o.ticks).passes i).declaredLen = frame.length
    · rw [if_neg (not_not.mpr hlen), if_pos (h hlen)]
    · rw [if_pos hlen]

theorem bailiffPresentPass_of_attempt (h : o.attempts passId frame = true) :
    ∃ i, (o.bailiff.passes i).Valid o.ticks ∧ (o.bailiff.passes i).passId = passId ∧
      (o.bailiff.passes i).declaredLen = frame.length ∧
      (o.bailiff.passes i).contentChecksum = checksum frame ∧
      (bailiffPresentPass o passId frame).1 = (frontdeskSend o.frontdesk frame).1 ∧
      (bailiffPresentPass o passId frame).2.ticks = o.ticks ∧
      (bailiffPresentPass o passId frame).2.frontdesk = (frontdeskSend o.frontdesk frame).2 ∧
      (bailiffPresentPass o passId frame).2.bailiff = { o.bailiff with
        passes := update (o.bailiff.reclaimExpired o.ticks).passes i
          { o.bailiff.passes i with inUse := false } } := by
  unfold Office.attempts at h
  cases hi : (o.bailiff.reclaimExpired o.ticks).findPass passId with
  | none =>
    rw [hi] at h
    exact Bool.noConfusion h
  | some i =>
    rw [hi] at h
    rw [decide_eq_true_eq] at h
    have hkey := key_of_find (findPass_eq _ passId ▸ hi)
    obtain ⟨hv, hid⟩ := reclaimExpired_key.mp hkey
    refine ⟨i, hv, hid, ?_⟩
    unfold bailiffPresentPass
    dsimp only
    rw [hi]
    dsimp only
    rw [if_neg (not_not.mpr h.1), if_neg (not_not.mpr h.2)]
    rw [reclaimExpired_of_valid hv] at h ⊢
    exact ⟨h.1, h.2, rfl, rfl, rfl, rfl⟩

theorem bailiffRequestPass_cases (o : Office) (frame : Frame) :
    (bailiffRequestPass o frame).2.ticks = o.ticks ∧
    (bailiffRequestPass o frame).2.frontdesk = o.frontdesk ∧
    (bailiffRequestPass o frame).2.wire = o.wire ∧
    ((∃ i, (bailiffRequestPass o frame).1 = some o.bailiff.nextPassId ∧
        ((o.bailiff.reclaimExpired o.ticks).passes i).key = none ∧
        (bailiffRequestPass o frame).2.bailiff = ⟨update (o.bailiff.reclaimExpired o.ticks).passes i
          ⟨o.bailiff.nextPassId, frame.length, checksum frame, o.ticks, true⟩,
          o.bailiff.nextPassId + 1⟩) ∨
      (bailiffRequestPass o frame).1 = none ∧ ((bailiffRequestPass o frame).2.bailiff = o.bailiff ∨
          (bailiffRequestPass o frame).2.bailiff = o.bailiff.reclaimExpired o.ticks)) := by
  unfold bailiffRequestPass
  split_ifs with hlen
  · exact ⟨rfl, rfl, rfl, .inr ⟨rfl, .inl rfl⟩⟩
  · dsimp only
    rw [freePass_eq]
    cases hfree : free key (o.bailiff.reclaimExpired o.ticks).passes with
    | none => exact ⟨rfl, rfl, rfl, .inr ⟨rfl, .inr rfl⟩⟩
    | some i => exact ⟨rfl, rfl, rfl, .inl ⟨i, rfl, key_of_free hfree, rfl⟩⟩

structure Issue where
  len : ℕ
  sum : Word
  tick : ℕ
  deriving DecidableEq

structure Hall where
  clock : ℕ := 0
  office : Office := {}
  issued : List Issue := []
  attempted : List Word := []

inductive HallCall
  | request (frame : Frame)
  | present (passId : Word) (frame : Frame)
  | wait (ticks : ℕ)
  | driver (f : FrontDesk)

namespace Hall

def step (s : Hall) : HallCall → Hall
  | .request frame =>
    { s with
      office := (bailiffRequestPass s.office frame).2
      issued := if (bailiffRequestPass s.office frame).1.isSome then
          s.issued ++ [⟨frame.length, checksum frame, s.clock⟩] else s.issued }
  | .present passId frame =>
    { s with
      office := (bailiffPresentPass s.office passId frame).2
      attempted := if s.office.attempts passId frame then s.attempted ++ [passId]
        else s.attempted }
  | .wait ticks =>
    { s with
      clock := s.clock + ticks
      office := { s.office with ticks := BitVec.ofNat 32 (s.clock + ticks) } }
  | .driver f => { s with office := { s.office with frontdesk := f } }

def number (k : ℕ) : Word := BitVec.ofNat 32 (k + 1)

theorem number_inj {j k n : ℕ} (hn : n < 2 ^ 32) (hj : j < n) (hk : k < n)
    (h : number j = number k) : j = k := by
  have := congrArg BitVec.toNat h
  unfold number at this
  rw [BitVec.toNat_ofNat, BitVec.toNat_ofNat] at this
  omega

/-- The pass is the one issued as number `k`, and it was not used. -/
structure Stands (s : Hall) (p : HallPass) (k : ℕ) (q : Issue) : Prop where
  issued : s.issued[k]? = some q
  eq : p = ⟨number k, q.len, q.sum, BitVec.ofNat 32 q.tick, true⟩
  tick_le : q.tick ≤ s.clock
  unused : number k ∉ s.attempted

structure Inv (s : Hall) : Prop where
  ticks : s.office.ticks = BitVec.ofNat 32 s.clock
  next : s.office.bailiff.nextPassId = number s.issued.length
  unique : Unique key s.office.bailiff.passes
  stands : ∀ i, (s.office.bailiff.passes i).inUse = true →
    ∃ k q, s.Stands (s.office.bailiff.passes i) k q
  known : ∀ passId ∈ s.attempted, ∃ k < s.issued.length, passId = number k
  nodup : s.attempted.Nodup

variable {s : Hall}

theorem Stands.lt {p : HallPass} {k : ℕ} {q : Issue} (h : s.Stands p k q) :
    k < s.issued.length := (List.getElem?_eq_some_iff.mp h.issued).1

theorem Stands.later {p : HallPass} {k : ℕ} {q : Issue} (h : s.Stands p k q) (o : Office)
    {clock : ℕ} (hc : s.clock ≤ clock) : { s with office := o, clock := clock }.Stands p k q :=
  ⟨h.issued, h.eq, h.tick_le.trans hc, h.unused⟩

theorem inv_boot : Inv {} where
  ticks := rfl
  next := rfl
  unique i j k hi := by simp [key] at hi
  stands i hi := by simp at hi
  known := by simp
  nodup := nodup_nil

theorem Inv.wait (h : s.Inv) (ticks : ℕ) : (s.step (.wait ticks)).Inv := { h with
  ticks := rfl
  stands i hi := by
    obtain ⟨k, q, hq⟩ := h.stands i hi
    exact ⟨k, q, hq.later _ (Nat.le_add_right _ _)⟩ }

theorem Inv.stands_reclaimed (h : s.Inv) {i : Fin bailiffMaxPasses}
    (hi : ((s.office.bailiff.reclaimExpired s.office.ticks).passes i).inUse = true) :
    ∃ k q, s.Stands ((s.office.bailiff.reclaimExpired s.office.ticks).passes i) k q := by
  have hv := reclaimExpired_inUse.mp hi
  rw [reclaimExpired_of_valid hv]
  exact h.stands i hv.1

theorem Inv.reclaim (h : s.Inv) {o : Office} (ht : o.ticks = s.office.ticks)
    (hb : o.bailiff = s.office.bailiff ∨
      o.bailiff = s.office.bailiff.reclaimExpired s.office.ticks) :
    Inv { s with office := o } := by
  refine ⟨ht.trans h.ticks, ?_, ?_, fun i hi => ?_, h.known, h.nodup⟩
  · rcases hb with hb | hb <;> exact (congrArg nextPassId hb).trans h.next
  · rcases hb with hb | hb
    · exact (congrArg passes hb) ▸ h.unique
    · exact (congrArg passes hb) ▸ unique_reclaimExpired h.unique _
  · rcases hb with hb | hb
    · rw [hb] at hi ⊢
      obtain ⟨k, q, hq⟩ := h.stands i hi
      exact ⟨k, q, hq.later o le_rfl⟩
    · rw [hb] at hi ⊢
      obtain ⟨k, q, hq⟩ := h.stands_reclaimed hi
      exact ⟨k, q, hq.later o le_rfl⟩

theorem Inv.present (h : s.Inv) (passId : Word) (frame : Frame) :
    (s.step (.present passId frame)).Inv := by
  cases ha : s.office.attempts passId frame with
  | false =>
    have hstep : s.step (.present passId frame) =
        { s with office := (bailiffPresentPass s.office passId frame).2 } := by
      simp [Hall.step, ha]
    rw [hstep, bailiffPresentPass_of_refused ha]
    exact h.reclaim rfl (.inr rfl)
  | true =>
    obtain ⟨i, hv, hid, -, -, -, hticks, -, hb⟩ := bailiffPresentPass_of_attempt ha
    obtain ⟨k, q, hq⟩ := h.stands i hv.1
    have hk : passId = number k := by rw [← hid, hq.eq]
    have hu := unique_reclaimExpired h.unique s.office.ticks
    have hi := reclaimExpired_key.mpr ⟨hv, hid⟩
    have hattempted : (s.step (.present passId frame)).attempted = s.attempted ++ [passId] := by
      simp [Hall.step, ha]
    refine ⟨hticks.trans h.ticks, ?_, ?_, fun j hj => ?_, ?_, ?_⟩
    · exact (congrArg nextPassId hb).trans h.next
    · refine (congrArg passes hb) ▸ hu.update fun k hk => ?_
      simp [key] at hk
    · change ((bailiffPresentPass s.office passId frame).2.bailiff.passes j).inUse = true at hj
      change ∃ k q, Stands _ ((bailiffPresentPass s.office passId frame).2.bailiff.passes j) k q
      rw [hb] at hj ⊢
      dsimp only at hj ⊢
      rw [update_apply] at hj ⊢
      split_ifs at hj ⊢ with hji
      obtain ⟨k', q', hq'⟩ := h.stands_reclaimed hj
      refine ⟨k', q', hq'.issued, hq'.eq, hq'.tick_le, ?_⟩
      rw [hattempted, mem_append, mem_singleton, not_or]
      refine ⟨hq'.unused, fun hk' => hji (hu ?_ hi)⟩
      rw [key_eq_some_iff]
      exact ⟨hj, by rw [hq'.eq, ← hk']⟩
    · rw [hattempted]
      intro x hx
      rcases mem_append.mp hx with hx | hx
      · exact h.known x hx
      · exact ⟨k, hq.lt, (mem_singleton.mp hx).trans hk⟩
    · rw [hattempted]
      refine h.nodup.append (nodup_singleton _) ?_
      rw [disjoint_singleton, hk]
      exact hq.unused

theorem number_ne {k n : ℕ} (hn : n + 1 < 2 ^ 32) (hk : k < n) : number k ≠ number n :=
  fun heq => hk.ne (number_inj hn (by omega) (by omega) heq)

theorem Inv.next_not_taken (h : s.Inv) (hn : s.issued.length + 1 < 2 ^ 32)
    (i : Fin bailiffMaxPasses) :
    ((s.office.bailiff.reclaimExpired s.office.ticks).passes i).key ≠
      some s.office.bailiff.nextPassId := by
  intro hi
  obtain ⟨hused, hid⟩ := key_eq_some_iff.mp hi
  obtain ⟨k, q, hq⟩ := h.stands_reclaimed hused
  refine number_ne hn hq.lt ?_
  rw [← h.next, ← hid, hq.eq]

theorem Inv.request (h : s.Inv) (frame : Frame)
    (hn : (s.step (.request frame)).issued.length < 2 ^ 32) :
    (s.step (.request frame)).Inv := by
  obtain ⟨hticks, -, -, ⟨i, hsome, hfree, hb⟩ | ⟨hnone, hb⟩⟩ :=
    bailiffRequestPass_cases s.office frame
  · have hissued : (s.step (.request frame)).issued =
        s.issued ++ [⟨frame.length, checksum frame, s.clock⟩] := by
      simp [Hall.step, hsome]
    rw [hissued, length_append] at hn
    have hu := unique_reclaimExpired h.unique s.office.ticks
    refine ⟨hticks.trans h.ticks, ?_, ?_, fun j hj => ?_, ?_, h.nodup⟩
    · rw [hissued, length_append, length_singleton]
      refine (congrArg nextPassId hb).trans ?_
      rw [h.next, number, number, BitVec.ofNat_add (s.issued.length + 1)]
      rfl
    · refine (congrArg passes hb) ▸ hu.update fun k hk => .inr fun j hj => ?_
      obtain rfl : s.office.bailiff.nextPassId = k := (key_eq_some_iff.mp hk).2
      exact h.next_not_taken hn j hj
    · change ((bailiffRequestPass s.office frame).2.bailiff.passes j).inUse = true at hj
      change ∃ k q, Stands _ ((bailiffRequestPass s.office frame).2.bailiff.passes j) k q
      rw [hb] at hj ⊢
      dsimp only at hj ⊢
      rw [update_apply] at hj ⊢
      split_ifs at hj ⊢ with hji
      · refine ⟨s.issued.length, ⟨frame.length, checksum frame, s.clock⟩, ?_, ?_, le_rfl, ?_⟩
        · rw [hissued, getElem?_concat_length]
        · rw [h.next, h.ticks]
        · intro hmem
          obtain ⟨k, hk, heq⟩ := h.known _ hmem
          exact number_ne hn hk heq.symm
      · obtain ⟨k, q, hq⟩ := h.stands_reclaimed hj
        refine ⟨k, q, ?_, hq.eq, hq.tick_le, hq.unused⟩
        rw [hissued, getElem?_append_left hq.lt, hq.issued]
    · intro x hx
      obtain ⟨k, hk, heq⟩ := h.known x hx
      refine ⟨k, ?_, heq⟩
      rw [hissued, length_append]
      exact Nat.lt_add_right _ hk
  · have hstep : s.step (.request frame) =
        { s with office := (bailiffRequestPass s.office frame).2 } := by
      simp [Hall.step, hnone]
    rw [hstep]
    exact h.reclaim hticks hb

theorem issued_length_le (s : Hall) (c : HallCall) :
    s.issued.length ≤ (s.step c).issued.length := by
  cases c with
  | request frame =>
    simp only [step]
    split_ifs <;> simp
  | present passId frame => exact le_rfl
  | wait ticks => exact le_rfl
  | driver f => exact le_rfl

theorem inv_run (es : List HallCall) (hn : (run step {} es).issued.length < 2 ^ 32) :
    Inv (run step {} es) := by
  refine run_invariant (I := fun s : Hall => s.issued.length < 2 ^ 32 → s.Inv) ?_
    (fun _ => inv_boot) es hn
  intro s c hs hn
  have h := hs ((s.issued_length_le c).trans_lt hn)
  cases c with
  | request frame => exact h.request frame hn
  | present passId frame => exact h.present passId frame
  | wait ticks => exact h.wait ticks
  | driver f => exact h.reclaim rfl (.inl rfl)

/-- The pass issued as number `k` can still be presented. -/
def Outstanding (s : Hall) (k : ℕ) : Prop :=
  k < s.issued.length ∧ ∃ i, (s.office.bailiff.passes i).Valid s.office.ticks ∧
    (s.office.bailiff.passes i).passId = number k

/-- The number uses up the pass `k`, issued for this frame at most 500 ticks ago. -/
structure UsesUp (s : Hall) (passId : Word) (frame : Frame) (k : ℕ) (q : Issue) : Prop where
  issued : s.issued[k]? = some q
  passId_eq : passId = number k
  unused : passId ∉ s.attempted
  len : q.len = frame.length
  sum : q.sum = checksum frame
  tick_le : q.tick ≤ s.clock
  age : (s.clock - q.tick) % 2 ^ 32 ≤ 500
  outstanding : s.Outstanding k
  rest : ∀ j, (s.step (.present passId frame)).Outstanding j ↔ s.Outstanding j ∧ j ≠ k

theorem Inv.usesUp (h : s.Inv) (hn : s.issued.length < 2 ^ 32) {passId : Word} {frame : Frame}
    (ha : s.office.attempts passId frame = true) : ∃ k q, s.UsesUp passId frame k q := by
  obtain ⟨i, hv, hid, hlen, hsum, -, hticks, -, hb⟩ := bailiffPresentPass_of_attempt ha
  obtain ⟨k, q, hq⟩ := h.stands i hv.1
  have hk : passId = number k := by rw [← hid, hq.eq]
  refine ⟨k, q, hq.issued, hk, hk ▸ hq.unused, ?_, ?_, hq.tick_le, ?_, ⟨hq.lt, i, hv, hk ▸ hid⟩, ?_⟩
  · rw [← hlen, hq.eq]
  · rw [← hsum, hq.eq]
  · have hage := hv.2
    rwa [hq.eq, h.ticks, BitVec.le_def, Wrap.toNat_ofNat_sub hq.tick_le] at hage
  · intro j
    have hu := unique_reclaimExpired h.unique s.office.ticks
    have hi := reclaimExpired_key.mpr ⟨hv, hid⟩
    refine Iff.trans (and_congr_right fun hj => ?_) and_assoc.symm
    change (∃ m, ((bailiffPresentPass s.office passId frame).2.bailiff.passes m).Valid
      (bailiffPresentPass s.office passId frame).2.ticks ∧
      ((bailiffPresentPass s.office passId frame).2.bailiff.passes m).passId = number j) ↔ _
    rw [hb, hticks]
    dsimp only
    constructor
    · rintro ⟨m, hm, hnum⟩
      rw [update_apply] at hm hnum
      split_ifs at hm hnum with hmi
      · exact Bool.noConfusion hm.1
      · have hvm := reclaimExpired_inUse.mp hm.1
        rw [reclaimExpired_of_valid hvm] at hnum
        refine ⟨⟨m, hvm, hnum⟩, ?_⟩
        rintro rfl
        exact hmi (hu (reclaimExpired_key.mpr ⟨hvm, hnum.trans hk.symm⟩) hi)
    · rintro ⟨⟨m, hvm, hnum⟩, hjk⟩
      have hmi : m ≠ i := by
        rintro rfl
        exact hjk (number_inj hn hj hq.lt (hnum.symm.trans (hid.trans hk)))
      refine ⟨m, ?_⟩
      rw [update_of_ne hmi, reclaimExpired_of_valid hvm]
      exact ⟨hvm, hnum⟩

theorem card_outstanding_le (hn : s.issued.length < 2 ^ 32) (S : Finset ℕ)
    (hS : ∀ k ∈ S, s.Outstanding k) : S.card ≤ bailiffMaxPasses := by
  choose! place hvalid hnum using fun k hk => (hS k hk).2
  have hinj : Set.InjOn place S := by
    intro j hj k hk hjk
    have heq : number j = number k := by rw [← hnum j hj, hjk, hnum k hk]
    exact number_inj hn (hS j hj).1 (hS k hk).1 heq
  calc S.card ≤ (Finset.univ : Finset (Fin bailiffMaxPasses)).card :=
        Finset.card_le_card_of_injOn place (fun _ _ => Finset.mem_univ _) hinj

/-- A send uses up exactly one of at most 32 passes, and no number is used twice. -/
theorem sends_use_up_passes (es : List HallCall) (hn : (run step {} es).issued.length < 2 ^ 32) :
    let s := run step {} es
    s.attempted.Nodup ∧
    (∀ S : Finset ℕ, (∀ k ∈ S, s.Outstanding k) → S.card ≤ bailiffMaxPasses) ∧
    (∀ frame, (s.step (.request frame)).office.frontdesk = s.office.frontdesk) ∧
    (∀ passId frame, s.office.attempts passId frame = false →
      (s.step (.present passId frame)).office.frontdesk = s.office.frontdesk) ∧
    (∀ passId frame, s.office.attempts passId frame = true →
      (s.step (.present passId frame)).office.frontdesk =
        (frontdeskSend s.office.frontdesk frame).2 ∧
      ∃ k q, s.UsesUp passId frame k q) := by
  intro s
  have h := inv_run es hn
  refine ⟨h.nodup, card_outstanding_le hn, fun frame => ?_, fun passId frame ha => ?_,
    fun passId frame ha => ?_⟩
  · exact (bailiffRequestPass_cases s.office frame).2.1
  · exact congrArg (fun r => r.2.frontdesk) (bailiffPresentPass_of_refused ha)
  · obtain ⟨i, -, -, -, -, -, -, hdesk, -⟩ := bailiffPresentPass_of_attempt ha
    exact ⟨hdesk, h.usesUp hn ha⟩

theorem send_uses_up_first_pass :
    let s := run step {} [.request [0x2a]]
    ∃ k q, s.UsesUp 1 [0x2a] k q := by
  have hn : (run step {} [.request [0x2a]]).issued.length < 2 ^ 32 := by
    decide +kernel
  exact ((sends_use_up_passes [.request [0x2a]] hn).2.2.2.2 1 [0x2a] (by decide +kernel)).2

theorem old_pass_honoured :
    let s := run step {} [.driver (FrontDesk.idle {}), .request [0x2a], .wait (2 ^ 32)]
    s.issued = [⟨1, checksum [0x2a], 0⟩] ∧ s.clock = 2 ^ 32 ∧
      (bailiffPresentPass s.office 1 [0x2a]).1 = true ∧
      (bailiffPresentPass s.office 1 [0x2a]).2.wire = [[0x2a]] := by
  decide +kernel

end Hall

end Aevros
