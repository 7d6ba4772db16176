import Aevros.Guarantees.Ledger

/-! # Both ends of the stream

The first byte may enter the inbox only after the handshake, and the FIN be consumed only after
every byte before it: which segments keep this.
-/

namespace Aevros

open Runs

variable {k k' r : Conn} {g : Segment} {e : ConnEvent} {l : Ledger}

def ConnEvent.arrival (k : Conn) : ConnEvent → Option (Conn × Segment)
  | .segment _ g => some (k, g)
  | .cookie u _ g => some (k.opened u g, g)
  | _ => none

theorem arrival_cases (h : e.arrival k = some (r, g)) (hl : e.Legal k) (hk : k.Live) :
    Received r g (k.step e) ∧ r.box.inUse = true ∧ g.data.length < 65536 ∧
      Ledger.added k e = (k.step e).box.bufferedBytes - r.box.bufferedBytes ∧
      (k.phase = .ended ↔ r.phase = .ended) := by
  cases e with
  | segment now g' =>
    cases h
    exact ⟨received_receive now k g, hl.1, hl.2.2, rfl, Iff.rfl⟩
  | cookie u now g' =>
    cases h
    have hc : k.rapport.status = .closed := hk.closed_of_free hl.1
    have hp : k.phase = .idle := by rw [Conn.phase, hc]; rfl
    have ho : (k.opened u g).phase = .open := rfl
    rw [step_cookie, hp, ho]
    refine ⟨received_receive now _ g, rfl, hl.2.2.2, ?_, by simp⟩
    rw [Ledger.added, step_cookie]
    rfl
  | _ => simp [ConnEvent.arrival] at h

theorem no_arrival (h : e.arrival k = none) (hl : e.Legal k) :
    Ledger.added k e = 0 ∧ ((k.step e).phase = .ended → k.phase = .ended) := by
  have quiet : Quiet k (k.step e) → e.isClaim = false →
      Ledger.added k e = 0 ∧ ((k.step e).phase = .ended → k.phase = .ended) := by
    intro hq hc
    rw [Ledger.added, hc, hq.phase]
    exact ⟨Nat.sub_eq_zero_of_le hq.buffered, id⟩
  have freed : Freed k (k.step e) → e.isClaim = false →
      Ledger.added k e = 0 ∧ ((k.step e).phase = .ended → k.phase = .ended) := by
    intro hf hc
    rw [Ledger.added, hc, hf.phase]
    exact ⟨Nat.sub_eq_zero_of_le hf.buffered.le, by simp⟩
  cases e with
  | segment now g => simp [ConnEvent.arrival] at h
  | cookie u now g => simp [ConnEvent.arrival] at h
  | syn u peerIsn ourIsn o me =>
    have hq := quiet_dispatchTracked o (rapportOnSyn (k.claim u) peerIsn ourIsn)
      (flagSyn ||| flagAck) ourIsn (peerIsn + 1) [] 1 me
    refine ⟨Nat.sub_eq_zero_of_le hq.buffered, fun hp => ?_⟩
    cases (hq.phase.symm.trans hp : Phase.received = .ended)
  | connect u ourIsn o me =>
    have hq := quiet_dispatchTracked o (rapportInitiateConnect (k.claim u) ourIsn) flagSyn
      ourIsn 0 [] 1 me
    refine ⟨Nat.sub_eq_zero_of_le hq.buffered, fun hp => ?_⟩
    cases (hq.phase.symm.trans hp : Phase.sent = .ended)
  | listen port protocol => exact ⟨rfl, id⟩
  | answer g =>
    rcases conversationAnswer_spec hl.2 g with hf | ⟨-, hbox, -, hphase⟩ | ⟨-, hk'⟩
    · exact freed hf rfl
    · refine ⟨Nat.sub_eq_zero_of_le (congrArg _ hbox).le, fun hp => ?_⟩
      cases (hphase.symm.trans hp)
    · refine quiet ?_ rfl
      rw [Conn.step, hk']
      exact .refl k
  | accept => exact quiet ⟨rfl, le_rfl, rfl, rfl⟩ rfl
  | send o data me => exact quiet (quiet_send o k data me) rfl
  | close o me => exact quiet (quiet_close o k me) rfl
  | recv maxLen => exact quiet (quiet_recv k maxLen) rfl
  | expire => exact ⟨Nat.sub_self _, fun hp => by cases hp⟩
  | timer now =>
    rcases quiet_timer now k with hq | hf
    · exact quiet hq rfl
    · exact freed hf rfl

def Segment.finSeq (g : Segment) : Word := g.seq + BitVec.ofNat 32 g.data.length

def Ledger.reached (l : Ledger) : Word := l.first + BitVec.ofNat 32 l.deposited

def Conn.TakesFin (k : Conn) (g : Segment) : Prop :=
  g.fin = true ∧ g.rst = false ∧ g.seq = k.rapport.expectedSeq ∧ k.phaseAfterAck g = .open

def FinConsumed (k : Conn) (e : ConnEvent) : Prop := k.phase ≠ .ended ∧ (k.step e).phase = .ended

/-- If the event consumes a FIN, every byte before it was deposited. -/
def FinAfterData (w : Watch) (e : ConnEvent) : Prop :=
  FinConsumed w.1 e → ∃ r g, e.arrival w.1 = some (r, g) ∧
    seqBefore (w.step e).2.reached g.finSeq = false

/-- A FIN that is consumed comes without payload or with one that LockBox has room for. -/
def FinFits (k : Conn) (e : ConnEvent) : Prop :=
  ∀ r g, e.arrival k = some (r, g) → r.TakesFin g → g.data ≠ [] → r.Fits g.data

theorem phaseAfterAck_ended : k.phaseAfterAck g = .ended ↔ k.phase = .ended := by
  unfold Conn.phaseAfterAck
  split_ifs with hc
  · simp [hc.1]
  · exact Iff.rfl

theorem finConsumed_iff (hr : Received r g k') :
    r.phase ≠ .ended ∧ k'.phase = .ended ↔ r.TakesFin g := by
  unfold Conn.TakesFin
  cases hr with
  | outOfOrder hseq _ _ hphase => simp [hphase, hseq]
  | dropped hf hseq hw =>
    rcases hw with hrst | hp
    · simp [hf.phase, hrst]
    · simp [hp, phaseAfterAck_ended.mpr hp]
  | ignored hrst hk hp =>
    have hp' : k'.phase = .idle := hk ▸ hp
    simp [hp', hrst]
  | inOrder n hseq hrst _ _ _ hphase =>
    rw [hphase, ne_eq, ← phaseAfterAck_ended (g := g)]
    simp only [hseq, hrst, true_and]
    split_ifs with hf
    · simp [hf]
    · exact iff_of_false (fun h => h.1 h.2) hf

theorem reached_iff (ha : Agrees (k', l)) (hu : r.box.inUse = true) (hr : Received r g k')
    (hf : r.TakesFin g) (hlen : g.data.length < 65536) :
    seqBefore l.reached g.finSeq = false ↔ (g.data ≠ [] → r.Fits g.data) := by
  have hended := ((finConsumed_iff hr).mpr hf).2
  obtain ⟨hfin, hrst, hseq, hopen⟩ := hf
  cases hr with
  | outOfOrder hne => exact absurd hseq hne
  | dropped hfr => simp [hfr.phase] at hended
  | ignored hrst' => simp [hrst] at hrst'
  | inOrder n _ _ hbox hn hmax _ hexp =>
    have hm : l.Matches k'.phase k'.rapport.expectedSeq := ha.matches_ (by rw [hbox]; exact hu)
    have hreach : l.reached = g.seq + BitVec.ofNat 32 n := by
      have hx := hm.ended hended
      rw [hexp, if_pos ⟨hfin, hopen⟩, BitVec.add_left_inj] at hx
      rw [hseq, hx, Ledger.reached]
    have hmax' : n ≤ 4096 := hmax
    rw [hreach, Segment.finSeq, ← Bool.not_eq_true,
      seqBefore_add_iff _ (by omega) (by omega), not_lt]
    by_cases hd : g.data = []
    · simp [hd]
    · have hpos := List.length_pos_iff.mpr hd
      by_cases hfit : r.Fits g.data
      · rw [if_pos ⟨hd, hfit⟩] at hn
        exact iff_of_true hn fun _ => hfit
      · rw [if_neg fun h => hfit h.2] at hn
        exact iff_of_false (by omega) fun h => hfit (h hd)

theorem finAfterData_iff {w : Watch} (ha : Agrees w) (hl : e.Legal w.1) :
    FinAfterData w e ↔ FinFits w.1 e := by
  have ha' := ha.step e hl
  unfold FinAfterData FinFits FinConsumed
  cases h : e.arrival w.1 with
  | none =>
    refine iff_of_true (fun hc => absurd ((no_arrival h hl).2 hc.2) hc.1) ?_
    simp
  | some p =>
    obtain ⟨r, g⟩ := p
    obtain ⟨hr, hu, hlen, -, hp⟩ := arrival_cases h hl ha.live
    rw [ne_eq, hp, finConsumed_iff hr]
    simp only [Option.some.injEq, Prod.mk.injEq]
    constructor
    · rintro hs _ _ ⟨rfl, rfl⟩ hf
      obtain ⟨_, _, ⟨rfl, rfl⟩, hb⟩ := hs hf
      exact (reached_iff ha' hu hr hf hlen).mp hb
    · intro hs hf
      exact ⟨r, g, ⟨rfl, rfl⟩, (reached_iff ha' hu hr hf hlen).mpr (hs r g ⟨rfl, rfl⟩ hf)⟩

theorem along_history {P Q : Watch → ConnEvent → Prop}
    (h : ∀ w e, Agrees w → e.Legal w.1 → (P w e ↔ Q w e)) (o : Office) (es : List Event)
    (c : Slot) :
    let s := run Net.step (Net.boot o) es
    (run Watch.step Watch.boot (s.history c)).1 = s.conns c ∧
      (Along Watch.step P Watch.boot (s.history c) ↔
        Along Watch.step Q Watch.boot (s.history c)) := by
  obtain ⟨hrun, hlegal⟩ := Net.history_run o es c
  refine ⟨by rw [Watch.run_fst]; exact hrun.symm, ?_⟩
  exact along_congr (I := Agrees) (fun w e ha hl _ => ha.step e hl) h .boot
    ((Watch.along_iff Watch.boot _).mpr hlegal)

/-- FINs come after all data before them exactly if none has a payload without room. -/
theorem fin_after_data_iff_payload_fits (o : Office) (es : List Event) (c : Slot) :
    let s := run Net.step (Net.boot o) es
    (run Watch.step Watch.boot (s.history c)).1 = s.conns c ∧
      (Along Watch.step FinAfterData Watch.boot (s.history c) ↔
        Along Watch.step (fun w e => FinFits w.1 e) Watch.boot (s.history c)) :=
  along_history (fun _ _ ha hl => finAfterData_iff ha hl) o es c

def filler (n : ℕ) : List Byte := List.replicate n 7

@[simp] theorem length_filler (n : ℕ) : (filler n).length = n := List.length_replicate

def fullInboxRun : List Event :=
  sampleHandshake ++ [fromPeer 8 (sampleIsn + 1) 0x10 (filler 1400),
    fromPeer 1408 (sampleIsn + 1) 0x10 (filler 1400),
    fromPeer 2808 (sampleIsn + 1) 0x10 (filler 1296),
    fromPeer 4104 (sampleIsn + 1) 0x11 [9]]

theorem fin_consumed_without_last_byte :
    let s := run Net.step (Net.boot sampleOffice) fullInboxRun
    (s.conns 1).rapport.status = .closeWait ∧ (s.conns 1).rapport.expectedSeq = 4105 ∧
      (s.conns 1).box.bufferedBytes = 4096 ∧
      (run Watch.step Watch.boot (s.history 1)).2.reached = 4104 := by
  decide +kernel

/-- Bytes are deposited only after the acknowledgement of our initial number. -/
def DepositsAfterHandshake (w : Watch) (e : ConnEvent) : Prop :=
  0 < Ledger.added w.1 e → (w.step e).2.acked = true

def Conn.TakesData (k : Conn) (g : Segment) : Prop :=
  g.rst = false ∧ g.seq = k.rapport.expectedSeq ∧ g.data ≠ [] ∧ k.Fits g.data

/-- A payload finds the handshake done or comes with the acknowledgement that ends it. -/
def DataAfterHandshake (k : Conn) (e : ConnEvent) : Prop :=
  ∀ r g, e.arrival k = some (r, g) → r.TakesData g →
    r.Completes g ∨ r.phase = .open ∨ r.phase = .ended

theorem added_pos_iff {n : ℕ}
    (hn : if g.data ≠ [] ∧ r.Fits g.data then g.data.length ≤ n else n = 0) :
    0 < n ↔ g.data ≠ [] ∧ r.Fits g.data := by
  split_ifs at hn with hc
  · exact iff_of_true ((List.length_pos_iff.mpr hc.1).trans_le hn) hc
  · exact iff_of_false (by omega) hc

theorem deposits_iff (ha : Agrees (k', l)) (hu : r.box.inUse = true) (hr : Received r g k') :
    (0 < k'.box.bufferedBytes - r.box.bufferedBytes → l.acked = true) ↔
      (r.TakesData g → r.Completes g ∨ r.phase = .open ∨ r.phase = .ended) := by
  cases hr with
  | outOfOrder hseq hbox => simp [hbox, Conn.TakesData, hseq]
  | ignored hrst hk => simp [hk, Conn.TakesData, hrst, rapportSetPeerWindow]
  | dropped hf hseq hw =>
    refine iff_of_true (by simp [hf.buffered]) fun ht => ?_
    rcases hw with hrst | hp
    · exact absurd ht.1 (by simp [hrst])
    · exact .inr (.inr hp)
  | inOrder n hseq hrst hbox hn _ hphase =>
    have hm : l.Matches k'.phase k'.rapport.expectedSeq := ha.matches_ (by rw [hbox]; exact hu)
    have hpos : 0 < k'.box.bufferedBytes - r.box.bufferedBytes ↔ r.TakesData g := by
      simp only [Conn.TakesData, hseq, hrst, true_and, hbox]
      rw [Nat.add_sub_cancel_left]
      exact added_pos_iff hn
    rw [hpos, hm.acked, hphase, Conn.phaseAfterAck]
    by_cases hc : r.Completes g <;> by_cases hf : g.fin = true <;>
      by_cases ho : r.phase = .open <;> simp [hc, ho]

theorem depositsAfterHandshake_iff {w : Watch} (ha : Agrees w) (hl : e.Legal w.1) :
    DepositsAfterHandshake w e ↔ DataAfterHandshake w.1 e := by
  unfold DepositsAfterHandshake DataAfterHandshake
  cases h : e.arrival w.1 with
  | none =>
    rw [(no_arrival h hl).1]
    simp
  | some p =>
    obtain ⟨r, g⟩ := p
    obtain ⟨hr, hu, -, hadd, -⟩ := arrival_cases h hl ha.live
    rw [hadd]
    refine (deposits_iff (ha.step e hl) hu hr).trans ?_
    simp only [Option.some.injEq, Prod.mk.injEq]
    constructor
    · rintro hs _ _ ⟨rfl, rfl⟩
      exact hs
    · exact fun hs => hs r g ⟨rfl, rfl⟩

/-- Bytes are deposited after the handshake exactly if payloads in order come after it. -/
theorem deposits_iff_data_after_handshake (o : Office) (es : List Event) (c : Slot) :
    let s := run Net.step (Net.boot o) es
    (run Watch.step Watch.boot (s.history c)).1 = s.conns c ∧
      (Along Watch.step DepositsAfterHandshake Watch.boot (s.history c) ↔
        Along Watch.step (fun w e => DataAfterHandshake w.1 e) Watch.boot (s.history c)) :=
  along_history (fun _ _ ha hl => depositsAfterHandshake_iff ha hl) o es c

theorem length_early_lt : ([1, 2, 3] : List Byte).length < 65516 := by simp

def earlyDataRun : List Event :=
  [.socket 1, .bind 0 80, fromPeer 7 0 0x02 [], fromPeer 8 0 0x08 [1, 2, 3] length_early_lt]

theorem data_deposited_before_handshake :
    let s := run Net.step (Net.boot sampleOffice) earlyDataRun
    (s.conns 1).rapport.status = .synReceived ∧ (s.conns 1).box.bufferedBytes = 3 ∧
      (s.conns 1).inbox.contents = [1, 2, 3] ∧
      (run Watch.step Watch.boot (s.history 1)).2.acked = false := by
  decide +kernel

end Aevros
