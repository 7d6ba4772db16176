import Aevros.Library.Matching
import Aevros.Observe.Pairs

/-! # Requests and responses are matched

The events that `nettrace_rebuild_at` pairs form a matching of responses with earlier requests, and
`nettrace_find_related` goes from each to the other.
-/

namespace Aevros

open Function List Bool Fin

/-- The event at `i` is taken over: it is counted, and no event up to it is invalid. -/
def NetwatchSnapshot.Listed (snap : NetwatchSnapshot) (i : Fin nettraceMaxEvents) : Prop :=
  i < snap.eventCount ∧ ∀ k ≤ i, (snap.events k).valid = true

namespace NetTrace

variable {snap : NetwatchSnapshot} {ticks : Fin nettraceMaxEvents → Word}
  {M : Matching (Fin nettraceMaxEvents)} {n : ℕ} {t : NetTrace} {p : Provenance}
  {i j k : Fin nettraceMaxEvents}

def paired (snap : NetwatchSnapshot) (M : Matching (Fin nettraceMaxEvents))
    (i : Fin nettraceMaxEvents) : NettraceEvent :=
  match M.claim i with
  | none => entry snap i
  | some k => { entry snap i with relatedId := (snap.events k).id, relation := .response }

/-- The first `n` events are taken over, and `M` says who claimed whom. -/
structure Follows (snap : NetwatchSnapshot) (M : Matching (Fin nettraceMaxEvents)) (n : ℕ)
    (t : NetTrace) : Prop where
  events : ∀ i, i.val < n → t.events i = paired snap M i
  claimed : ∀ k, t.claimed k = true ↔ ∃ i, M.claim i = some k
  claim_lt : ∀ i k, M.claim i = some k → i.val < n
  reverse : ∀ i k, M.claim i = some k → isReverseMatch (snap.events i) (snap.events k) = true

theorem paired_of_none (h : M.claim i = none) : paired snap M i = entry snap i := by
  rw [paired, h]

theorem paired_of_some (h : M.claim i = some k) : paired snap M i =
    { entry snap i with relatedId := (snap.events k).id, relation := .response } := by
  rw [paired, h]

theorem relation_paired : (paired snap M i).relation = .response ↔ ∃ k, M.claim i = some k := by
  cases h : M.claim i with
  | none => simp [paired_of_none h, entry]
  | some k => simp [paired_of_some h]

theorem Follows.claim_eq_none (h : Follows snap M n t) (hi : n ≤ i.val) : M.claim i = none := by
  rw [Option.eq_none_iff_forall_ne_some]
  exact fun k hk => absurd (h.claim_lt i k hk) (Nat.not_lt.mpr hi)

theorem Follows.enter (h : Follows snap M n t) (hi : i.val = n) :
    Follows snap M (n + 1) (t.enter snap i) := by
  constructor
  case events =>
    intro j hj
    by_cases hji : j = i
    · subst hji
      rw [paired_of_none (h.claim_eq_none hi.ge)]
      exact update_self ..
    · have hlt : j.val < n := Nat.lt_of_le_of_ne (Nat.le_of_lt_succ hj) fun he =>
        hji (Fin.ext (he.trans hi.symm))
      exact (update_of_ne hji ..).trans (h.events j hlt)
  case claimed => exact h.claimed
  case claim_lt => exact fun j k hk => (h.claim_lt j k hk).trans (Nat.lt_succ_self n)
  case reverse => exact h.reverse

theorem Follows.claim (h : Follows snap M (n + 1) t) (hi : i.val = n) (hnew : M.claim i = none)
    (hki : k < i) (hk : t.claimed k = false) (hrel : (t.events k).relation ≠ .response)
    (hrev : isReverseMatch (snap.events i) (snap.events k) = true) :
    ∃ M', Follows snap M' (n + 1) (t.claim snap i k) := by
  have hself : ∀ j, M.claim j ≠ some i := by
    intro j hj
    have hlt : i.val < j.val := M.lt j i hj
    have hle : j.val < n + 1 := h.claim_lt j i hj
    omega
  have hfree : ∀ j, M.claim j ≠ some k := by
    intro j hj
    rw [(h.claimed k).mpr ⟨j, hj⟩] at hk
    cases hk
  have hnone : M.claim k = none := by
    have hlt : k.val < n + 1 := Nat.lt_succ_of_lt (hi ▸ hki)
    rw [h.events k hlt, Ne, relation_paired] at hrel
    exact Option.eq_none_iff_forall_ne_some.mpr fun l hl => hrel ⟨l, hl⟩
  have hiff : ∀ j l, (M.add i k hki hself hfree hnone).claim j = some l ↔
      j = i ∧ l = k ∨ M.claim j = some l := fun j l => Matching.claim_add_eq_some_iff hnew
  refine ⟨M.add i k hki hself hfree hnone, ?_, ?_, ?_, ?_⟩
  · intro j hj
    by_cases hji : j = i
    · subst hji
      rw [paired_of_some Matching.claim_add_self]
      refine (update_self ..).trans ?_
      rw [h.events j hj, paired_of_none hnew]
    · refine (update_of_ne hji ..).trans ((h.events j hj).trans ?_)
      rw [paired, paired, Matching.claim_add_of_ne hji]
  · intro l
    simp only [hiff, exists_or, ← h.claimed, NetTrace.claim]
    by_cases hl : l = k
    · subst hl
      simp
    · simp [hl]
  · intro j l hjl
    obtain ⟨rfl, -⟩ | hjl := (hiff j l).mp hjl
    · omega
    · exact h.claim_lt j l hjl
  · intro j l hjl
    obtain ⟨rfl, rfl⟩ | hjl := (hiff j l).mp hjl
    · exact hrev
    · exact h.reverse j l hjl

theorem Follows.round (h : Follows snap M n t) (hi : i.val = n)
    (ticks : Fin nettraceMaxEvents → Word) (p : Provenance) :
    ∃ M', Follows snap M' (n + 1) (round snap ticks i (t, p)).1 := by
  have henter := h.enter hi
  unfold NetTrace.round
  dsimp only
  cases hopen : openRequest snap i (t.enter snap i) with
  | none => exact ⟨M, henter⟩
  | some k =>
    have hk := eq_true_of_find?_eq_some hopen
    simp only [and_eq_true, decide_eq_true_eq, not_eq_true', or_eq_false_iff,
      decide_eq_false_iff_not] at hk
    obtain ⟨⟨hki, hfree, hrel⟩, hrev⟩ := hk
    exact henter.claim hi (h.claim_eq_none hi.ge) hki hfree hrel hrev

theorem eventCount_round (snap : NetwatchSnapshot) (ticks : Fin nettraceMaxEvents → Word)
    (i : Fin nettraceMaxEvents) (s : NetTrace × Provenance) :
    (NetTrace.round snap ticks i s).1.eventCount = s.1.eventCount := by
  unfold NetTrace.round
  dsimp only
  cases openRequest snap i (s.1.enter snap i) <;> rfl

theorem lt_iff_listed_of_end {n : ℕ} (hn : n = min snap.eventCount nettraceMaxEvents)
    (hvalid : ∀ k, k.val < n → (snap.events k).valid = true) (i : Fin nettraceMaxEvents) :
    i.val < n ↔ snap.Listed i := by
  rw [NetwatchSnapshot.Listed]
  constructor
  · exact fun hlt => ⟨by omega, fun k hk => hvalid k (by omega)⟩
  · omega

theorem lt_iff_listed_of_invalid {i : Fin nettraceMaxEvents}
    (hv : (snap.events i).valid = false) (hi : i.val < snap.eventCount)
    (hvalid : ∀ k, k.val < i.val → (snap.events k).valid = true) (j : Fin nettraceMaxEvents) :
    j.val < i.val ↔ snap.Listed j := by
  constructor
  · exact fun hlt => ⟨by omega, fun k hk => hvalid k (by omega)⟩
  · rintro ⟨-, hall⟩
    by_contra hle
    rw [hall i (not_lt.mp hle)] at hv
    cases hv

theorem Follows.scan {is : List (Fin nettraceMaxEvents)} {m : ℕ}
    (h : Follows snap M n t) (his : is.map val = range' n m)
    (hcount : t.eventCount = n + m) (hnm : n + m = min snap.eventCount nettraceMaxEvents)
    (hvalid : ∀ k, k.val < n → (snap.events k).valid = true)
    (ticks : Fin nettraceMaxEvents → Word) (p : Provenance) :
    ∃ M', Follows snap M' (NetTrace.scan snap ticks is (t, p)).1.eventCount
        (NetTrace.scan snap ticks is (t, p)).1 ∧
      ∀ i : Fin nettraceMaxEvents,
        i < (NetTrace.scan snap ticks is (t, p)).1.eventCount ↔ snap.Listed i := by
  induction is generalizing t p M n m with
  | nil =>
    obtain rfl : m = 0 := range'_eq_nil_iff.mp his.symm
    refine ⟨M, hcount ▸ h, fun i => ?_⟩
    rw [NetTrace.scan, hcount]
    exact lt_iff_listed_of_end hnm hvalid i
  | cons i is ih =>
    cases m with
    | zero => simp at his
    | succ m =>
      rw [map_cons, range'_succ, cons.injEq] at his
      rw [NetTrace.scan]
      cases hv : (snap.events i).valid with
      | true =>
        obtain ⟨M', hround⟩ := h.round his.1 ticks p
        have hcount' : _ = t.eventCount := eventCount_round snap ticks i (t, p)
        generalize NetTrace.round snap ticks i (t, p) = s at hround hcount' ⊢
        obtain ⟨t', p'⟩ := s
        refine ih hround his.2 ?_ (by omega) ?_ p'
        · exact hcount'.trans (by omega)
        · intro k hk
          rcases Nat.lt_succ_iff_lt_or_eq.mp hk with hk | hk
          · exact hvalid k hk
          · rw [Fin.ext (hk.trans his.1.symm)]
            exact hv
      | false =>
        refine ⟨M, ?_, ?_⟩
        · exact ⟨his.1 ▸ h.events, h.claimed, his.1 ▸ h.claim_lt, h.reverse⟩
        · exact lt_iff_listed_of_invalid hv (by omega) fun k hk => hvalid k (by omega)

theorem follows_clear (n : ℕ) : Follows snap .empty 0 { nettraceClear with eventCount := n } := by
  constructor <;> simp [nettraceClear]

theorem events_settle (now : BitVec 64) (t : NetTrace) (i : Fin nettraceMaxEvents) :
    ∃ status, (t.settle now).events i = { t.events i with status := status } := by
  unfold settle
  dsimp only
  split_ifs with h
  · exact ⟨_, rfl⟩
  · exact ⟨(t.events i).status, rfl⟩

/-- What `nettrace_rebuild_at` leaves: a matching `M` of the listed events. -/
structure Rebuilt (snap : NetwatchSnapshot) (M : Matching (Fin nettraceMaxEvents))
    (t : NetTrace) : Prop where
  listed : ∀ i : Fin nettraceMaxEvents, i < t.eventCount ↔ snap.Listed i
  events : ∀ i, snap.Listed i → ∃ status, t.events i = { paired snap M i with status := status }
  claim_listed : ∀ i k, M.claim i = some k → snap.Listed i
  reverse : ∀ i k, M.claim i = some k → isReverseMatch (snap.events i) (snap.events k) = true
  answered : ∀ i, snap.Listed i → (snap.events i).direction = .tx →
    ((t.events i).status = .answered ↔ ∃ j, M.claim j = some i)

theorem statusAt_eq_answered_iff {now : BitVec 64} {claimed : Bool} {e : NettraceEvent} :
    e.statusAt now claimed = .answered ↔ claimed = true := by
  unfold NettraceEvent.statusAt
  split_ifs <;> simp_all

theorem direction_paired : (paired snap M i).direction = (snap.events i).direction := by
  cases h : M.claim i with
  | none => rw [paired_of_none h]; rfl
  | some k => rw [paired_of_some h]; rfl

theorem exists_rebuilt (snap : NetwatchSnapshot) (now : BitVec 64)
    (ticks : Fin nettraceMaxEvents → Word) (p : Provenance) :
    ∃ M, Rebuilt snap M (nettraceRebuildAt snap now ticks p).1 := by
  have hids : ((finRange nettraceMaxEvents).take (min snap.eventCount nettraceMaxEvents)).map val =
      range' 0 (min snap.eventCount nettraceMaxEvents) := by
    rw [map_take, map_coe_finRange_eq_range, take_range, ← range_eq_range',
      Nat.min_assoc, Nat.min_self]
  obtain ⟨M, h, hlisted⟩ := (follows_clear (min snap.eventCount nettraceMaxEvents)).scan
    hids (Nat.zero_add _).symm (Nat.zero_add _) (by simp) ticks p
  unfold nettraceRebuildAt
  dsimp only
  generalize NetTrace.scan snap ticks _ _ = s at h hlisted ⊢
  refine ⟨M, hlisted, ?_, ?_, h.reverse, ?_⟩
  · intro i hi
    obtain ⟨status, hs⟩ := events_settle now s.1 i
    exact ⟨status, hs.trans (by rw [h.events i ((hlisted i).mpr hi)])⟩
  · exact fun i k hk => (hlisted i).mp (h.claim_lt i k hk)
  · intro i hi htx
    have hlt := (hlisted i).mpr hi
    have hdir : (s.1.events i).direction = .tx := by
      rw [h.events i hlt, direction_paired, htx]
    have hstatus : ((s.1.settle now).events i).status =
        (s.1.events i).statusAt now (s.1.claimed i) := by
      unfold settle
      dsimp only
      rw [if_pos ⟨hlt, hdir⟩]
    rw [hstatus, statusAt_eq_answered_iff, h.claimed]

def Claims (t : NetTrace) (i k : Fin nettraceMaxEvents) : Prop :=
  i < t.eventCount ∧ k < t.eventCount ∧ (t.events i).relation = .response ∧
    (t.events i).relatedId = (t.events k).eventId

/-- The listed events have different numbers, none of them 0. -/
structure Numbered (snap : NetwatchSnapshot) : Prop where
  inj : ∀ i k, snap.Listed i → snap.Listed k → (snap.events i).id = (snap.events k).id → i = k
  ne_zero : ∀ i, snap.Listed i → (snap.events i).id ≠ 0

theorem find?_eq_some_of_unique {n : ℕ} {p : Fin n → Bool} {i : Fin n} (hi : p i = true)
    (h : ∀ j, p j = true → j = i) : Fin.find? p = some i := by
  cases hf : Fin.find? p with
  | none => simp [Fin.find?_eq_none_iff.mp hf i] at hi
  | some j => rw [h j (eq_true_of_find?_eq_some hf)]

theorem eventId_paired : (paired snap M i).eventId = (snap.events i).id := by
  cases h : M.claim i with
  | none => rw [paired_of_none h]; rfl
  | some k => rw [paired_of_some h]; rfl

theorem valid_paired : (paired snap M i).valid = true := by
  cases h : M.claim i with
  | none => rw [paired_of_none h]; rfl
  | some k => rw [paired_of_some h]; rfl

namespace Rebuilt

variable (h : Rebuilt snap M t) (hn : Numbered snap)
include h

theorem eventId_eq (hi : snap.Listed i) : (t.events i).eventId = (snap.events i).id := by
  obtain ⟨status, hs⟩ := h.events i hi
  rw [hs, ← eventId_paired (M := M)]

theorem valid_eq (hi : snap.Listed i) : (t.events i).valid = true := by
  obtain ⟨status, hs⟩ := h.events i hi
  rw [hs, ← valid_paired (M := M)]

theorem relatedId_of_none (hi : snap.Listed i) (hk : M.claim i = none) :
    (t.events i).relatedId = 0 := by
  obtain ⟨status, hs⟩ := h.events i hi
  rw [hs, paired_of_none hk]
  rfl

theorem relatedId_of_some (hk : M.claim i = some k) :
    (t.events i).relatedId = (snap.events k).id := by
  obtain ⟨status, hs⟩ := h.events i (h.claim_listed i k hk)
  rw [hs, paired_of_some hk]

theorem relation_iff (hi : snap.Listed i) :
    (t.events i).relation = .response ↔ ∃ k, M.claim i = some k := by
  obtain ⟨status, hs⟩ := h.events i hi
  rw [hs]
  exact relation_paired

theorem listed_of_claim (hk : M.claim i = some k) : snap.Listed k := by
  have hlt : k.val < i.val := M.lt i k hk
  have hi := (h.listed i).mpr (h.claim_listed i k hk)
  exact (h.listed k).mp (hlt.trans hi)

include hn

theorem claims_iff : t.Claims i k ↔ M.claim i = some k := by
  constructor
  · rintro ⟨hi, hk, hrel, hid⟩
    rw [h.listed] at hi hk
    obtain ⟨l, hl⟩ := (h.relation_iff hi).mp hrel
    rw [h.relatedId_of_some hl, h.eventId_eq hk] at hid
    rw [← hn.inj l k (h.listed_of_claim hl) hk hid]
    exact hl
  · intro hk
    have hi := h.claim_listed i k hk
    have hk' := h.listed_of_claim hk
    refine ⟨(h.listed i).mpr hi, (h.listed k).mpr hk', (h.relation_iff hi).mpr ⟨k, hk⟩, ?_⟩
    rw [h.relatedId_of_some hk, h.eventId_eq hk']

theorem findEvent_eq (hi : snap.Listed i) : nettraceFindEvent t (snap.events i).id = some i := by
  apply find?_eq_some_of_unique
  · simp [(h.listed i).mpr hi, h.valid_eq hi, h.eventId_eq hi]
  · intro j hj
    simp only [Bool.and_eq_true, decide_eq_true_eq] at hj
    have hj' := (h.listed j).mp hj.1.1
    exact hn.inj j i hj' hi ((h.eventId_eq hj').symm.trans hj.2)

theorem findRelated_eq (hmates : M.Mates i k) :
    nettraceFindRelated t (snap.events i).id = some k := by
  unfold nettraceFindRelated
  rcases hmates with hk | hk
  · have hk' := h.listed_of_claim hk
    rw [h.findEvent_eq hn (h.claim_listed i k hk)]
    dsimp only
    rw [h.relatedId_of_some hk, if_pos (hn.ne_zero k hk')]
    exact h.findEvent_eq hn hk'
  · have hi := h.listed_of_claim hk
    have hlk := h.claim_listed k i hk
    rw [h.findEvent_eq hn hi]
    dsimp only
    rw [h.relatedId_of_none hi (M.unclaimed k i hk)]
    apply find?_eq_some_of_unique
    · simp [(h.listed k).mpr hlk, h.valid_eq hlk, h.relatedId_of_some hk]
    · intro j hj
      simp only [Bool.and_eq_true, decide_eq_true_eq] at hj
      have hj' := (h.listed j).mp hj.1.1
      cases hl : M.claim j with
      | none =>
        rw [h.relatedId_of_none hj' hl] at hj
        exact absurd hj.2.symm (hn.ne_zero i hi)
      | some l =>
        rw [h.relatedId_of_some hl] at hj
        rw [hn.inj l i (h.listed_of_claim hl) hi hj.2] at hl
        exact M.inj j k i hl hk

end Rebuilt

end NetTrace

open NetTrace in
/-- Requests and responses are a matching, and each leads to the other. -/
theorem responses_matched (snap : NetwatchSnapshot) (now : BitVec 64)
    (ticks : Fin nettraceMaxEvents → Word) (p : Provenance)
    (hinj : ∀ i k, snap.Listed i → snap.Listed k → (snap.events i).id = (snap.events k).id → i = k)
    (hzero : ∀ i, snap.Listed i → (snap.events i).id ≠ 0) :
    let t := (nettraceRebuildAt snap now ticks p).1
    (∀ i : Fin nettraceMaxEvents, i < t.eventCount ↔ snap.Listed i) ∧
      (∀ i, snap.Listed i → (t.events i).eventId = (snap.events i).id) ∧
      (∀ i j k, t.Claims i k → t.Claims j k → i = j) ∧
      (∀ i : Fin nettraceMaxEvents, i < t.eventCount → (t.events i).relation = .response →
        ∃! k, t.Claims i k) ∧
      (∀ i k, t.Claims i k → k < i ∧ (t.events k).relation ≠ .response ∧
        (snap.events k).direction ≠ (snap.events i).direction ∧
        (snap.events k).protocol = (snap.events i).protocol ∧
        (snap.events k).srcIp = (snap.events i).dstIp ∧
        (snap.events k).dstIp = (snap.events i).srcIp ∧
        (snap.events k).srcPort = (snap.events i).dstPort ∧
        (snap.events k).dstPort = (snap.events i).srcPort) ∧
      (∀ k : Fin nettraceMaxEvents, k < t.eventCount → (snap.events k).direction = .tx →
        ((t.events k).status = .answered ↔ ∃ i, t.Claims i k)) ∧
      ∀ i k, t.Claims i k ∨ t.Claims k i → nettraceFindRelated t (snap.events i).id = some k ∧
          nettraceFindRelated t (snap.events k).id = some i := by
  intro t
  obtain ⟨M, h⟩ := exists_rebuilt snap now ticks p
  have hn : Numbered snap := ⟨hinj, hzero⟩
  have hclaims : ∀ i k, t.Claims i k ↔ M.claim i = some k := fun i k => h.claims_iff hn
  simp only [hclaims]
  refine ⟨h.listed, fun i hi => h.eventId_eq hi, M.inj, ?_, ?_, ?_, ?_⟩
  · intro i hi hrel
    obtain ⟨k, hk⟩ := (h.relation_iff ((h.listed i).mp hi)).mp hrel
    exact ⟨k, hk, fun l hl => Option.some.inj (hl.symm.trans hk)⟩
  · intro i k hk
    have hrel : (t.events k).relation ≠ .response := by
      rw [Ne, h.relation_iff (h.listed_of_claim hk)]
      rintro ⟨l, hl⟩
      exact Matching.claim_ne hl i hk
    have hrev := h.reverse i k hk
    simp only [isReverseMatch, and_eq_true, decide_eq_true_eq] at hrev
    obtain ⟨⟨⟨⟨⟨hproto, hdir⟩, hsrc⟩, hdst⟩, hsport⟩, hdport⟩ := hrev
    exact ⟨M.lt i k hk, hrel, hdir.symm, hproto.symm, hdst.symm, hsrc.symm, hdport.symm,
      hsport.symm⟩
  · exact fun k hk htx => h.answered k ((h.listed k).mp hk) htx
  · exact fun i k hmates => ⟨h.findRelated_eq hn hmates, h.findRelated_eq hn hmates.symm⟩

theorem request_and_reply_matched :
    let request : NetwatchEvent := ⟨5, .udp, .tx, 43, 1, 2, 1234, 53, true, 10⟩
    let reply : NetwatchEvent := ⟨6, .udp, .rx, 43, 2, 1, 53, 1234, true, 11⟩
    let snap : NetwatchSnapshot := ⟨fun i => if i.val = 0 then request else reply, 2⟩
    let t := (nettraceRebuildAt snap 20 (fun _ => 11) .zero).1
    nettraceFindRelated t 5 = some ⟨1, by decide⟩ ∧
      nettraceFindRelated t 6 = some ⟨0, by decide⟩ := by
  intro request reply snap t
  have hid : ∀ i, (snap.events i).id = if i.val = 0 then 5 else 6 := fun i =>
    apply_ite NetwatchEvent.id ..
  obtain ⟨-, -, -, -, -, -, hrelated⟩ := responses_matched snap 20 (fun _ => 11) .zero (by
      rintro i k ⟨hi, -⟩ ⟨hk, -⟩ heq
      have hi' : i.val < 2 := hi
      have hk' : k.val < 2 := hk
      rw [hid, hid] at heq
      split_ifs at heq with h₁ h₂ h₂
      · omega
      · cases heq
      · cases heq
      · omega)
    (by
      intro i _
      rw [hid]
      split_ifs <;> decide)
  have hclaims : t.Claims ⟨1, by decide⟩ ⟨0, by decide⟩ := by
    unfold NetTrace.Claims
    decide +kernel
  exact (hrelated _ _ (.inl hclaims)).symm

end Aevros
