import Aevros.Tcp.Window

/-! # How long a silent peer is waited for

The ninth timeout of the oldest segment in a row ends the connection. While no acknowledgement frees
a segment, what is left to wait falls with every tick.
-/

namespace Aevros

open Runs Serial PacketsState List BitVec Option

variable {p : PacketsState} {now u : Word} {i : Fin schedWindow} {s : Word × PacketsState}

namespace SchedCall

/-- A segment that is tracked comes later in sequence order than the oldest one. -/
def Later (p : PacketsState) : SchedCall → Prop
  | .track seq _ _ => ∀ i, p.oldest = some i →
    seqBefore (p.seg i).seq seq = true ∧ seqBefore seq (p.seg i).seq = false
  | _ => True

/-- A call that no acknowledgement of the peer is behind: it frees no segment. -/
def Unanswered (p : PacketsState) : SchedCall → Prop
  | .ack acked => ∀ i, p.covered acked i = false
  | .cancel => False
  | c => c.Later p

end SchedCall

/-- Time passes with the ticks: `scheduler_tick` runs on every one of them. -/
def clockStep (s : Word × PacketsState) : SchedCall → Word × PacketsState
  | .tick => (s.1 + 1, s.2.call (s.1 + 1, .tick))
  | c => (s.1, s.2.call (s.1, c))

/-- The segments are tracked for retransmission in sequence order, with a timeout in bounds. -/
structure Orderly (p : PacketsState) : Prop where
  armed : p.Armed
  within : ∃ u, p.Within u
  rto_le : p.rto.toNat ≤ 1000
  rto_pos : p.state = .retry → p.rto ≠ 0

theorem orderly_boot : Orderly {} where
  armed := armed_boot
  within := ⟨0, by rintro i ⟨⟩⟩
  rto_le := by decide
  rto_pos := by rintro ⟨⟩

theorem PacketsState.Within.mono {q : PacketsState} (h : p.Within u)
    (hseg : ∀ i, (q.seg i).inUse = true →
      (p.seg i).inUse = true ∧ (q.seg i).seq = (p.seg i).seq) : q.Within u := by
  intro i hi
  obtain ⟨hused, hseq⟩ := hseg i hi
  rw [hseq]
  exact h i hused

theorem PacketsState.Empty.within (h : p.Empty) (u : Word) : p.Within u := by
  intro i hi
  simp [h i] at hi

theorem PacketsState.IsOldest.within (h : p.IsOldest u i) (hp : p.Within u) :
    p.Within (p.seg i).seq := by
  intro j hj
  have hle : ahead u (p.seg i).seq ≤ ahead u (p.seg j).seq := by
    rcases h.2 j hj with h | ⟨h, -⟩ <;> omega
  have hlt := hp j hj
  rw [ahead_sub hle]
  omega

theorem ahead_lt_of_not_seqBefore {a b : Word} (h : seqBefore b a = false) :
    ahead a b < 2 ^ 31 := by
  rw [← Bool.not_eq_true, seqBefore_iff] at h
  exact Nat.lt_of_not_le h

theorem ahead_pos_of_seqBefore {a b : Word} (h : seqBefore a b = true) : 0 < ahead a b := by
  rw [Nat.pos_iff_ne_zero, ← ahead_self a, ne_eq, ahead_inj]
  rintro rfl
  simp [seqBefore_iff] at h

theorem within_put {x : Flight} (hp : ∃ u, p.Within u)
    (hlater : ∀ i, p.oldest = some i → seqBefore x.seq (p.seg i).seq = false)
    (i : Fin schedWindow) : ∃ u, (p.put now i x).Within u := by
  obtain ⟨u, hu⟩ := hp
  -- all segments are counted from the oldest one, or from the new one if there is none
  obtain ⟨v, hv, hx⟩ : ∃ v, p.Within v ∧ ahead v x.seq < 2 ^ 31 := by
    cases hold : p.oldest with
    | none => exact ⟨x.seq, (oldest_eq_none_iff.mp hold).within _, by simp⟩
    | some j =>
      exact ⟨(p.seg j).seq, ((oldest_eq_some_iff hu).mp hold).within hu,
        ahead_lt_of_not_seqBefore (hlater j hold)⟩
  refine ⟨v, fun j hj => ?_⟩
  rcases eq_or_ne j i with rfl | hji
  · simpa [put] using hx
  · simp only [put, Function.update_of_ne hji] at hj ⊢
    exact hv j hj

theorem rto_addSample (p : PacketsState) (sample : Word) :
    (p.addSample sample).rto.toNat ≤ 1000 ∧ (p.addSample sample).rto ≠ 0 := by
  have hmin : schedMinRto.toNat = 20 := rfl
  have hmax : schedMaxRto.toNat = 1000 := rfl
  simp only [addSample]
  generalize (if p.srtt = 0 then sample else _) + 4 * _ = r
  split_ifs with h₁ h₂ h₂
  · simp [schedMinRto, schedMaxRto] at h₂
  · exact ⟨by rw [hmin]; omega, by decide⟩
  · exact ⟨by rw [hmax], by decide⟩
  · rw [lt_def, hmin] at h₁
    rw [lt_def] at h₂
    refine ⟨by omega, ?_⟩
    rintro rfl
    simp at h₁

theorem rto_settle (p : PacketsState) (now acked : Word) : (p.settle now acked).rto = p.rto ∨
      ((p.settle now acked).rto.toNat ≤ 1000 ∧ (p.settle now acked).rto ≠ 0) := by
  unfold settle
  split
  · exact .inl rfl
  · exact .inr (rto_addSample _ _)

theorem rto_backOff (hle : p.rto.toNat ≤ 1000) (hpos : p.rto ≠ 0) :
    (p.backOff now i).rto.toNat ≤ 1000 ∧ (p.backOff now i).rto ≠ 0 := by
  have hmax : schedMaxRto.toNat = 1000 := rfl
  have hpos' : p.rto.toNat ≠ 0 := fun h => hpos (eq_of_toNat_eq (by simpa using h))
  have hmul : (p.rto * 2).toNat = p.rto.toNat * 2 := by
    change p.rto.toNat * 2 % 2 ^ 32 = _
    omega
  simp only [backOff]
  split_ifs with h
  · exact ⟨by rw [hmax], by decide⟩
  · rw [lt_def] at h
    refine ⟨by omega, fun h0 => hpos' ?_⟩
    have := congrArg BitVec.toNat h0
    rw [hmul] at this
    simpa using this

namespace Orderly

theorem track (h : Orderly p) {seq : Word} {seqLen : ℕ} {frame : Frame}
    (hlater : (SchedCall.track seq seqLen frame).Later p) :
    Orderly (schedulerTrack now p seq seqLen frame).2 := by
  rcases p.track_cases now seq seqLen frame with ⟨heq, -⟩ | ⟨i, -, -, -, -, heq⟩
  · rw [heq]
    exact h
  · rw [heq]
    have hx (j : Fin schedWindow) (hj : p.oldest = some j) := (hlater j hj).2
    have hrto : (p.put now i ⟨seq, seqLen, frame⟩).rto.toNat ≤ 1000 ∧
        (p.put now i ⟨seq, seqLen, frame⟩).rto ≠ 0 := by
      simp only [put]
      split_ifs with h0
      · decide
      · exact ⟨h.rto_le, h0⟩
    exact ⟨.inr rfl, within_put (x := ⟨seq, seqLen, frame⟩) h.within hx i, hrto.1, fun _ => hrto.2⟩

theorem ack (h : Orderly p) (now acked : Word) : Orderly (schedulerAck now p acked).2 := by
  have harmed := h.armed.ack now acked
  have hwithin : ∃ u, (schedulerAck now p acked).2.Within u := by
    obtain ⟨u, hu⟩ := h.within
    refine ⟨u, hu.mono fun i hi => ⟨schedulerAck_shrinks now p acked i hi, ?_⟩⟩
    rw [seg_ack]
    split_ifs
    · exact congrArg Flight.seq (flight_free p acked i)
    · rfl
  rcases p.ack_cases now acked with ⟨-, heq⟩ | ⟨hstate, -, heq⟩ | ⟨-, -, heq⟩
  · rw [heq]
    exact h
  · rw [heq] at harmed hwithin ⊢
    rcases rto_settle p now acked with hr | ⟨hle, hpos⟩
    · exact ⟨harmed, hwithin, hr ▸ h.rto_le, fun _ => hr ▸ h.rto_pos hstate⟩
    · exact ⟨harmed, hwithin, hle, fun _ => hpos⟩
  · rw [heq] at harmed hwithin ⊢
    exact ⟨harmed, hwithin, h.rto_le, h.rto_pos⟩

theorem cancel (p : PacketsState) : Orderly (schedulerCancel p) where
  armed := .inl fun _ => rfl
  within := ⟨0, by rintro i ⟨⟩⟩
  rto_le := by simp [schedulerCancel]
  rto_pos := by rintro ⟨⟩

theorem backOff (h : Orderly p) (hstate : p.state = .retry) (now : Word) (i : Fin schedWindow) :
    Orderly (p.backOff now i) where
  armed := .inr hstate
  within := by
    obtain ⟨u, hu⟩ := h.within
    exact ⟨u, hu.mono fun _ hi => ⟨hi, rfl⟩⟩
  rto_le := (rto_backOff h.rto_le (h.rto_pos hstate)).1
  rto_pos := fun _ => (rto_backOff h.rto_le (h.rto_pos hstate)).2

theorem timer (h : Orderly p) (now : Word) : Orderly (p.timer now) := by
  rcases p.timer_cases now with ⟨-, heq⟩ | ⟨-, hempty, heq⟩ | ⟨i, hstate, -, hi⟩
  · rwa [heq]
  · rw [heq]
    exact ⟨.inl hempty, ⟨0, Empty.within hempty 0⟩, h.rto_le, by rintro ⟨⟩⟩
  · rcases hi with ⟨-, heq⟩ | ⟨-, -, heq⟩ | ⟨-, heq⟩
    · rwa [heq]
    · rw [heq]
      exact h.backOff hstate now i
    · rw [heq]
      exact ⟨.inl fun _ => rfl, ⟨0, by rintro i ⟨⟩⟩, h.rto_le, by rintro ⟨⟩⟩

theorem call (p : PacketsState) (c : Word × SchedCall) (h : Orderly p) (hlater : c.2.Later p) :
    Orderly (p.call c) := by
  obtain ⟨now, c⟩ := c
  cases c with
  | track seq seqLen frame => exact h.track hlater
  | ack acked => exact h.ack now acked
  | cancel => exact cancel p
  | tick => exact h.timer now

theorem retry (h : Orderly p) (hi : p.oldest = some i) : p.state = .retry :=
  h.armed.resolve_left fun hempty => by simp [oldest_eq_none_iff.mpr hempty] at hi

end Orderly

/-- The most ticks until the timer gives up on segment `i`. -/
def ticksLeft (now : Word) (p : PacketsState) (i : Fin schedWindow) : ℕ :=
  (if ahead (p.seg i).startTimer now = 2 ^ 32 - 1 then p.rto.toNat + 1
    else max 1 (p.rto.toNat - ahead (p.seg i).startTimer now)) +
  1000 * (retryLimit - p.retryTrack)

theorem lt_ticksLeft (now : Word) (p : PacketsState) (i : Fin schedWindow) :
    1000 * (retryLimit - p.retryTrack) < ticksLeft now p i := by
  unfold ticksLeft
  split_ifs <;> omega

theorem ticksLeft_le (h : Orderly p) : ticksLeft now p i ≤
    if ahead (p.seg i).startTimer now = 2 ^ 32 - 1 then 9001 else 9000 := by
  have hle := h.rto_le
  unfold ticksLeft retryLimit
  split_ifs <;> omega

theorem oldest_put (now : Word) (h : Orderly p) (hi : p.oldest = some i) {x : Flight}
    {j : Fin schedWindow} (hj : (p.seg j).inUse = false)
    (hlater : seqBefore (p.seg i).seq x.seq = true ∧ seqBefore x.seq (p.seg i).seq = false) :
    (p.put now j x).oldest = some i ∧ ((p.put now j x).seg i) = p.seg i := by
  obtain ⟨u, hu⟩ := h.within
  have hold := (oldest_eq_some_iff hu).mp hi
  have hwithin := hold.within hu
  have hij : i ≠ j := by
    rintro rfl
    simp [hold.1] at hj
  have hseg : (p.put now j x).seg i = p.seg i := by simp [put, hij]
  have hwithin' : (p.put now j x).Within (p.seg i).seq := by
    intro k hk
    rcases eq_or_ne k j with rfl | hkj
    · simpa [put] using ahead_lt_of_not_seqBefore hlater.2
    · simp only [put, Function.update_of_ne hkj] at hk ⊢
      exact hwithin k hk
  refine ⟨(oldest_eq_some_iff hwithin').mpr ⟨hseg ▸ hold.1, fun k hk => ?_⟩, hseg⟩
  rw [hseg, ahead_self]
  rcases eq_or_ne k j with rfl | hkj
  · left
    simpa [put] using ahead_pos_of_seqBefore hlater.1
  · simp only [put, Function.update_of_ne hkj] at hk ⊢
    have hk' := ((oldest_eq_some_iff hwithin).mp hi).2 k hk
    rwa [ahead_self] at hk'

theorem unanswered_keeps (now : Word) (h : Orderly p) (hi : p.oldest = some i) {c : SchedCall}
    (hc : c.Unanswered p) (htick : c ≠ .tick) :
    (p.call (now, c)).oldest = some i ∧ ticksLeft now (p.call (now, c)) i = ticksLeft now p i := by
  cases c with
  | tick => exact absurd rfl htick
  | cancel => exact hc.elim
  | track seq seqLen frame =>
    change (schedulerTrack now p seq seqLen frame).2.oldest = some i ∧
      ticksLeft now (schedulerTrack now p seq seqLen frame).2 i = _
    rcases p.track_cases now seq seqLen frame with ⟨heq, -⟩ | ⟨j, -, hj, -, -, heq⟩
    · rw [heq]
      exact ⟨hi, rfl⟩
    · rw [heq]
      obtain ⟨hold, hseg⟩ := oldest_put now (x := ⟨seq, seqLen, frame⟩) h hi hj (hc i hi)
      refine ⟨hold, ?_⟩
      have hrto : (p.put now j ⟨seq, seqLen, frame⟩).rto = p.rto :=
        if_neg (h.rto_pos (h.retry hi))
      rw [ticksLeft, hseg, hrto]
      simp [ticksLeft, put, h.retry hi]
  | ack acked =>
    change (schedulerAck now p acked).2.oldest = some i ∧
      ticksLeft now (schedulerAck now p acked).2 i = _
    rcases p.ack_cases now acked with ⟨-, heq⟩ | ⟨-, ⟨j, hj⟩, -⟩ | ⟨-, -, heq⟩
    · rw [heq]
      exact ⟨hi, rfl⟩
    · exact absurd (hc j) (by simp [hj])
    · rw [heq]
      exact ⟨hi, rfl⟩

theorem ahead_succ (a b : Word) : ahead a (b + 1) = (ahead a b + 1) % 2 ^ 32 := by
  unfold ahead
  bv_omega

theorem tick_nears (now : Word) (h : Orderly p) (hi : p.oldest = some i) :
    p.GivesUp (now + 1) ∨ ((p.timer (now + 1)).oldest = some i ∧
      ticksLeft (now + 1) (p.timer (now + 1)) i + 1 ≤ ticksLeft now p i) := by
  have hstate := h.retry hi
  rcases p.timer_cases (now + 1) with ⟨hne, -⟩ | ⟨-, hempty, -⟩ | ⟨j, -, hj, hcases⟩
  · exact absurd hstate hne
  · simp [oldest_eq_none_iff.mpr hempty] at hi
  · obtain rfl := some.inj (hj.symm.trans hi)
    have hage := ahead_succ (p.seg j).startTimer now
    have hlt := ahead_lt (p.seg j).startTimer now
    rcases hcases with ⟨hwait, heq⟩ | ⟨-, hretry, heq⟩ | ⟨hgives, -⟩
    · refine .inr ⟨by rw [heq, hi], ?_⟩
      change ahead (p.seg j).startTimer (now + 1) < p.rto.toNat at hwait
      rw [heq]
      unfold ticksLeft
      split_ifs <;> omega
    · refine .inr ⟨by rw [heq]; exact hi, ?_⟩
      have hnew := (h.backOff hstate (now + 1) j).rto_le
      have hstart : ((p.backOff (now + 1) j).seg j).startTimer = now + 1 := by simp [backOff]
      have hretry' : (p.backOff (now + 1) j).retryTrack = p.retryTrack + 1 := rfl
      have hpos := lt_ticksLeft now p j
      have hrest : ticksLeft (now + 1) (p.backOff (now + 1) j) j ≤
          1000 * (retryLimit - p.retryTrack) := by
        unfold ticksLeft
        rw [hstart, if_neg (by norm_num)]
        omega
      rw [heq]
      omega
    · exact .inl hgives

theorem gives_up (h : Orderly s.2) (hi : s.2.oldest = some i) {calls : List SchedCall}
    (hcalls : Along clockStep (fun s c => c.Unanswered s.2) s calls)
    (hticks : ticksLeft s.1 s.2 i ≤ calls.count .tick) :
    ∃ before after, calls = before ++ .tick :: after ∧ before.count .tick < ticksLeft s.1 s.2 i ∧
      (run clockStep s before).2.GivesUp ((run clockStep s before).1 + 1) := by
  induction calls generalizing s with
  | nil =>
    have hpos := lt_ticksLeft s.1 s.2 i
    simp at hticks
    omega
  | cons c calls ih =>
    by_cases htick : c = .tick
    · subst htick
      rcases tick_nears s.1 h hi with hgives | ⟨hold, hnear⟩
      · exact ⟨[], calls, rfl, (Nat.zero_le _).trans_lt (lt_ticksLeft ..), hgives⟩
      · rw [count_cons_self] at hticks
        obtain ⟨before, after, rfl, hlt, hgives⟩ :=
          ih (s := clockStep s .tick) (h.timer _) hold hcalls.2 (by
            change ticksLeft (s.1 + 1) (s.2.timer (s.1 + 1)) i ≤ _
            omega)
        refine ⟨.tick :: before, after, rfl, ?_, hgives⟩
        change before.count .tick < ticksLeft (s.1 + 1) (s.2.timer (s.1 + 1)) i at hlt
        rw [count_cons_self]
        omega
    · have hstep : clockStep s c = (s.1, s.2.call (s.1, c)) := by
        cases c with
        | tick => exact absurd rfl htick
        | _ => rfl
      have hlater : c.Later s.2 := by
        cases c with
        | track => exact hcalls.1
        | _ => trivial
      obtain ⟨hold, hleft⟩ := unanswered_keeps s.1 h hi hcalls.1 htick
      rw [count_cons_of_ne htick, ← hleft] at hticks
      have hrest := hcalls.2
      rw [hstep] at hrest
      obtain ⟨before, after, rfl, hlt, hgives⟩ :=
        ih (s := (s.1, s.2.call (s.1, c))) (Orderly.call _ (s.1, c) h hlater) hold hrest hticks
      refine ⟨c :: before, after, rfl, ?_, ?_⟩
      · rw [count_cons_of_ne htick, ← hleft]
        exact hlt
      · rw [run_cons, hstep]
        exact hgives

def giveUpLimit (now : Word) (p : PacketsState) : ℕ :=
  if p.oldest.any fun i => ahead (p.seg i).startTimer now = 2 ^ 32 - 1 then 9001 else 9000

theorem empty_rapportOnRst {k : Conn} (h : k.scheduler.Empty) :
    (rapportOnRst k).scheduler.Empty := by
  unfold rapportOnRst
  split_ifs
  · exact h
  · exact schedulerCancel_empty _

theorem PacketsState.GivesUp.timer {k : Conn} (h : k.scheduler.GivesUp now) :
    (schedulerTimer now k).2 = rapportOnRst (k.setScheduler (k.scheduler.timer now)) ∧
      (schedulerTimer now k).2.scheduler.Empty := by
  have hclear : (k.scheduler.timer now).Empty := by
    obtain ⟨hstate, hlimit, i, hold, hwait⟩ := h
    intro j
    simp [PacketsState.timer, hstate, hlimit, hold, hwait, clearWindow]
  have heq := (schedulerTimer_snd now k).resolve_left fun hn => hn.1 h
  refine ⟨heq.2, ?_⟩
  rw [heq.2]
  exact empty_rapportOnRst hclear

/-- Segments that the peer does not acknowledge are given up within the bound. -/
theorem dead_peer_given_up (past : List (Word × SchedCall))
    (hpast : Along PacketsState.call (fun p c => c.2.Later p) {} past)
    (hflight : ¬ (scheduled past).Empty) (now : Word) (calls : List SchedCall)
    (hcalls : Along clockStep (fun s c => c.Unanswered s.2) (now, scheduled past) calls)
    (hticks : giveUpLimit now (scheduled past) ≤ calls.count .tick) :
    ∃ before after, calls = before ++ .tick :: after ∧
      before.count .tick < giveUpLimit now (scheduled past) ∧
      ∀ k : Conn, k.scheduler = (run clockStep (now, scheduled past) before).2 →
        (schedulerTimer ((run clockStep (now, scheduled past) before).1 + 1) k).2 =
            rapportOnRst (k.setScheduler (k.scheduler.timer
              ((run clockStep (now, scheduled past) before).1 + 1))) ∧
          (schedulerTimer ((run clockStep (now, scheduled past) before).1 + 1)
            k).2.scheduler.Empty := by
  have horderly : Orderly (scheduled past) := hpast.run_invariant Orderly.call orderly_boot
  obtain ⟨i, hi⟩ : ∃ i, (scheduled past).oldest = some i := by
    rw [← ne_none_iff_exists']
    exact fun hnone => hflight (oldest_eq_none_iff.mp hnone)
  have hle : ticksLeft now (scheduled past) i ≤ giveUpLimit now (scheduled past) := by
    simpa [giveUpLimit, hi] using ticksLeft_le horderly
  obtain ⟨before, after, heq, hlt, hgives⟩ :=
    gives_up (s := (now, scheduled past)) horderly hi hcalls (hle.trans hticks)
  refine ⟨before, after, heq, hlt.trans_le hle, fun k hk => ?_⟩
  rw [← hk] at hgives
  exact hgives.timer

theorem unanswered_ticks (s : Word × PacketsState) (n : ℕ) :
    Along clockStep (fun s c => c.Unanswered s.2) s (replicate n .tick) := by
  induction n generalizing s with
  | zero => trivial
  | succ n ih => exact ⟨trivial, ih _⟩

theorem lone_segment_given_up : ∃ before after, replicate 9000 .tick = before ++ .tick :: after ∧
    before.count .tick < giveUpLimit 0 (scheduled [(0, .track 100 1 [7])]) ∧
    ∀ k : Conn, k.scheduler = (run clockStep (0, scheduled [(0, .track 100 1 [7])]) before).2 →
      (schedulerTimer ((run clockStep (0, scheduled [(0, .track 100 1 [7])]) before).1 + 1) k).2 =
          rapportOnRst (k.setScheduler (k.scheduler.timer
            ((run clockStep (0, scheduled [(0, .track 100 1 [7])]) before).1 + 1))) ∧
        (schedulerTimer ((run clockStep (0, scheduled [(0, .track 100 1 [7])]) before).1 + 1)
          k).2.scheduler.Empty := by
  refine dead_peer_given_up [(0, .track 100 1 [7])] ⟨by rintro i ⟨⟩, trivial⟩
    (fun hempty => absurd (hempty 0) (by decide +kernel)) 0 _ (unanswered_ticks _ 9000) ?_
  decide +kernel

/-- The longest timeout runs, and `n` ticks were waited since its first start. -/
structure Waited (s : Word × PacketsState) (i : Fin schedWindow) (n : ℕ) : Prop where
  state : s.2.state = .retry
  oldest : s.2.oldest = some i
  rto : s.2.rto = 1000
  runs : ahead (s.2.seg i).startTimer s.1 < 1000
  spent : 1000 * s.2.retryTrack + ahead (s.2.seg i).startTimer s.1 = n

theorem Waited.tick {n : ℕ} (h : Waited s i n) (hn : n < 8999) :
    Waited (clockStep s .tick) i (n + 1) := by
  obtain ⟨hstate, hold, hrto, hruns, hspent⟩ := h
  have hage := ahead_succ (s.2.seg i).startTimer s.1
  have hdue : s.1 + 1 - (s.2.seg i).startTimer < s.2.rto ↔
      ahead (s.2.seg i).startTimer (s.1 + 1) < 1000 := by
    rw [hrto]
    rfl
  rcases s.2.timer_cases (s.1 + 1) with ⟨hne, -⟩ | ⟨-, hempty, -⟩ | ⟨j, -, hj, hcases⟩
  · exact absurd hstate hne
  · simp [oldest_eq_none_iff.mpr hempty] at hold
  · obtain rfl := some.inj (hj.symm.trans hold)
    simp only [clockStep, PacketsState.call]
    rcases hcases with ⟨hwait, heq⟩ | ⟨hwait, -, heq⟩ | ⟨⟨-, hmany, k, hk, hwait⟩, -⟩
    · rw [hdue] at hwait
      rw [heq]
      exact ⟨hstate, hold, hrto, hwait, by dsimp only; omega⟩
    · rw [hdue] at hwait
      have hstart : ((s.2.backOff (s.1 + 1) j).seg j).startTimer = s.1 + 1 := by simp [backOff]
      rw [heq]
      refine ⟨hstate, hold, by simp [backOff, hrto, schedMaxRto], ?_, ?_⟩
      · rw [hstart, ahead_self]
        norm_num
      · rw [hstart, ahead_self]
        change 1000 * (s.2.retryTrack + 1) + 0 = _
        omega
    · obtain rfl := some.inj (hj.symm.trans hk)
      rw [hdue] at hwait
      unfold retryLimit at hmany
      omega

theorem waited_ticks (h : Waited s i 0) {n : ℕ} (hn : n ≤ 8999) :
    Waited (run clockStep s (replicate n .tick)) i n := by
  induction n with
  | zero => exact h
  | succ n ih =>
    rw [List.replicate_succ', run_append]
    exact (ih (by omega)).tick (by omega)

def longAgo : List (Word × SchedCall) :=
  [(0, .track 100 1 [7]), (0, .track 101 1 [8]), (100, .tick), (300, .tick), (700, .tick),
    (1500, .tick), (0xFFFFFFFF, .ack 101)]

theorem waited_longAgo : Waited (clockStep (0xFFFFFFFF, scheduled longAgo) .tick) 1 0 :=
  ⟨by decide +kernel, by decide +kernel, by decide +kernel, by decide +kernel, by decide +kernel⟩

theorem still_waiting_after_9000_ticks :
    Along PacketsState.call (fun p c => c.2.Later p) {} longAgo ∧ ¬ (scheduled longAgo).Empty ∧
      ∀ n ≤ 9000, ¬ (run clockStep (0xFFFFFFFF, scheduled longAgo)
        (replicate n .tick)).2.Empty := by
  have hflight : ¬ (scheduled longAgo).Empty := fun hempty => absurd (hempty 1) (by decide +kernel)
  refine ⟨⟨by rintro i ⟨⟩, fun i hi => ?_, trivial, trivial, trivial, trivial, trivial, trivial⟩,
    hflight, fun n hn hempty => ?_⟩
  · cases hi
    decide +kernel
  · cases n with
    | zero => exact hflight hempty
    | succ n =>
      rw [List.replicate_succ, run_cons] at hempty
      have hold := (waited_ticks waited_longAgo (n := n) (by omega)).oldest
      rw [oldest_eq_none_iff.mpr hempty] at hold
      cases hold

end Aevros
