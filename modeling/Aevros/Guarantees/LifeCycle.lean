import Aevros.Sockets.Journal
import Aevros.Tcp.Dispatch

/-! # The life of a slot

A slot is in use exactly while its state machine is not CLOSED, listeners apart, and only the end of
TIME_WAIT leaves its window as it is.
-/

namespace Aevros

open Runs

variable {k k' k'' : Conn}

/-- The slot keeps its entry and does not leave or enter CLOSED. -/
structure Kept (k k' : Conn) : Prop where
  inUse : k'.box.inUse = k.box.inUse
  tuple : k'.box.tuple = k.box.tuple
  closed : k'.rapport.status = .closed ↔ k.rapport.status = .closed
  window : k'.rapport.status = .closed → k.scheduler.Shrinks k'.scheduler

/-- The slot is let go with an empty window. -/
structure Dropped (k' : Conn) : Prop where
  inUse : k'.box.inUse = false
  closed : k'.rapport.status = .closed
  window : k'.scheduler.Empty

/-- What everything but a claim and the end of TIME_WAIT does. -/
def Goes (k k' : Conn) : Prop := Kept k k' ∨ k.rapport.status ≠ .closed ∧ Dropped k'

theorem Kept.refl (k : Conn) : Kept k k := ⟨rfl, rfl, Iff.rfl, fun _ _ => id⟩

theorem Kept.trans (h : Kept k k') (h' : Kept k' k'') : Kept k k'' where
  inUse := h'.inUse.trans h.inUse
  tuple := h'.tuple.trans h.tuple
  closed := h'.closed.trans h.closed
  window hc i hi := h.window (h'.closed.mp hc) i (h'.window hc i hi)

theorem Dropped.kept (h : Dropped k) (h' : Kept k k') : Dropped k' where
  inUse := h'.inUse.trans h.inUse
  closed := h'.closed.mpr h.closed
  window := (h'.window (h'.closed.mpr h.closed)).empty h.window

theorem Goes.trans (h : Goes k k') (h' : Goes k' k'') : Goes k k'' := by
  rcases h' with h' | ⟨hc, h'⟩
  · exact h.imp (·.trans h') fun hd => ⟨hd.1, hd.2.kept h'⟩
  · refine .inr ⟨?_, h'⟩
    rcases h with h | h
    · exact fun hk => hc (h.closed.mpr hk)
    · exact h.1

theorem Kept.goes (h : Kept k k') : Goes k k' := .inl h

theorem Goes.refl (k : Conn) : Goes k k := (Kept.refl k).goes

theorem Delivered.kept {n : ℕ} (h : Delivered k k' n) : Kept k k' where
  inUse := h.inUse
  tuple := h.tuple
  closed := by rw [h.status]
  window _ := by rw [h.scheduler]; exact fun _ => id

theorem kept_deliver (k : Conn) (data : List Byte) : Kept k (k.deliver data) := by
  obtain ⟨n, hn, -⟩ := delivered_deliver k data
  exact hn.kept

section

variable (now : Word)

theorem kept_ack (k : Conn) (acked : Word) : Kept k (k.ack now acked).2 :=
  ⟨rfl, rfl, Iff.rfl, fun _ => schedulerAck_shrinks now k.scheduler acked⟩

theorem kept_setStatus {st : ConversationState} (h : st ≠ .closed)
    (hk : k.rapport.status ≠ .closed) : Kept k (k.setStatus st) :=
  ⟨rfl, rfl, by simp [Conn.setStatus, h, hk], fun hc => absurd hc h⟩

section

variable (k : Conn)

theorem dropped_letGo : Dropped (letGo k) := ⟨rfl, rfl, schedulerCancel_empty _⟩

theorem goes_rapportOnRst : Goes k (rapportOnRst k) := by
  unfold rapportOnRst
  split_ifs with hs
  · exact .refl k
  · exact .inr ⟨hs, dropped_letGo k⟩

theorem goes_rapportOnAck (ackNum : Word) : Goes k (rapportOnAck now k ackNum) := by
  unfold rapportOnAck
  split
  · rename_i hs
    split_ifs
    · exact .refl k
    · exact (kept_setStatus (by simp) (by simp [hs])).goes
  · rename_i hs
    split_ifs
    · exact (kept_setStatus (by simp) (by simp [hs])).goes
    · exact .refl k
  · rename_i hs
    split_ifs
    · exact .inl ⟨rfl, rfl, by simp [enterTimeWait, hs], by simp [enterTimeWait]⟩
    · exact .refl k
  · rename_i hs
    split_ifs
    · exact .inr ⟨by simp [hs], dropped_letGo k⟩
    · exact .refl k
  · exact .refl k

theorem kept_rapportOnFin : Kept k (rapportOnFin now k) := by
  unfold rapportOnFin
  split
  · rename_i hs
    exact ⟨rfl, rfl, by simp [Conn.setStatus, hs], by simp [Conn.setStatus]⟩
  · rename_i hs
    exact ⟨rfl, rfl, by simp [Conn.setStatus, hs], by simp [Conn.setStatus]⟩
  · rename_i hs
    exact ⟨rfl, rfl, by simp [enterTimeWait, hs], by simp [enterTimeWait]⟩
  · exact .refl k

variable (g : Segment)

theorem kept_outOfOrder : Kept k (k.outOfOrder now g).2 := by
  have hearly : k.scheduler.Shrinks (k.earlyAck now g).2.scheduler := by
    unfold Conn.earlyAck
    split_ifs
    · exact schedulerAck_shrinks now k.scheduler g.ack
    · exact fun _ => id
  obtain ⟨w, hw⟩ := k.outOfOrder_snd now g
  rw [hw]
  exact ⟨rfl, rfl, Iff.rfl, fun _ => hearly⟩

theorem goes_takeAck : Goes k (k.takeAck now g).2 := by
  unfold Conn.takeAck
  split_ifs
  · exact (goes_rapportOnAck now k g.ack).trans (kept_ack ..).goes
  · exact .refl k

theorem goes_inOrder : Goes k (k.inOrder now g).2 := by
  have hd := (goes_takeAck now k g).trans (kept_deliver _ g.data).goes
  unfold Conn.inOrder
  split_ifs
  · exact hd.trans (kept_rapportOnFin ..).goes
  · exact hd

theorem goes_receive : Goes k (conversationReceive now k g).2 := by
  have hw : Kept k (rapportSetPeerWindow k g.window) := ⟨rfl, rfl, Iff.rfl, fun _ _ => id⟩
  unfold conversationReceive
  dsimp only
  split_ifs
  · exact hw.goes.trans (kept_outOfOrder ..).goes
  · exact hw.goes.trans (goes_rapportOnRst _)
  · exact hw.goes.trans (goes_inOrder ..)

end

theorem goes_answer (hk : k.rapport.status = .synSent) (g : Segment) :
    Goes k (conversationAnswer k g) := by
  unfold conversationAnswer rapportOnSynAck
  split_ifs
  · exact goes_rapportOnRst k
  · exact .refl k
  · exact .refl k
  · exact .inl ⟨rfl, rfl, by simp [hk], by simp⟩
  · exact .refl k

theorem goes_dispatchTracked (o : Office) (flags : Byte) (seq ack : Word) (payload : List Byte)
    (seqLen : ℕ) (me : Identity) (hk : k.rapport.status ≠ .closed) :
    Kept k (dispatchTracked o k flags seq ack payload seqLen me).2.2 := by
  obtain ⟨b, w, p, h, -⟩ := dispatchTracked_conn o k flags seq ack payload seqLen me
  rw [h]
  exact ⟨rfl, rfl, Iff.rfl, fun hc => absurd hc hk⟩

theorem kept_initiateClose (k : Conn) (finSeq : Word) : Kept k (rapportInitiateClose k finSeq) := by
  unfold rapportInitiateClose
  dsimp only
  split
  · rename_i hs
    exact ⟨rfl, rfl, by simp [Conn.setStatus, hs], by simp [Conn.setStatus]⟩
  · rename_i hs
    exact ⟨rfl, rfl, by simp [Conn.setStatus, hs], by simp [Conn.setStatus]⟩
  · exact ⟨rfl, rfl, Iff.rfl, fun _ _ => id⟩

theorem kept_receiveWindow (k : Conn) : Kept k (waystationReceiveWindow k).2 :=
  ⟨rfl, rfl, Iff.rfl, fun _ _ => id⟩

theorem kept_send (o : Office) (k : Conn) (data : List Byte) (me : Identity) :
    Kept k (switchboardSend o k data me).2.2 := by
  apply (switchboardSend_outcome o k data me).row (.refl k) (kept_receiveWindow k)
  intro hs frame
  have hopen : k.rapport.status ≠ .closed := by simp [hs.established]
  exact ⟨rfl, rfl, Iff.rfl, fun hc => absurd hc hopen⟩

theorem kept_close (o : Office) (k : Conn) (me : Identity) :
    Kept k (switchboardClose o k me).2.2 := by
  apply (switchboardClose_outcome o k me).row (.refl k) (kept_receiveWindow k)
  intro hs frame
  have hopen : k.rapport.status ≠ .closed := by rcases hs.status with hst | hst <;> simp [hst]
  refine Kept.trans ?_ (kept_initiateClose _ _)
  exact ⟨rfl, rfl, Iff.rfl, fun hc => absurd hc hopen⟩

theorem kept_read (k : Conn) (maxLen : ℕ) : Kept k (k.read maxLen).2 := by
  obtain ⟨m, -, hbox⟩ := k.read_box maxLen
  exact ⟨by rw [hbox], by rw [hbox]; rfl, Iff.rfl, fun _ _ => id⟩

theorem kept_recv (k : Conn) (maxLen : ℕ) : Kept k (switchboardRecv k maxLen).2 := by
  unfold switchboardRecv
  split_ifs
  · exact .refl k
  · exact kept_read k maxLen

theorem goes_timer (k : Conn) : Goes k (schedulerTimer now k).2 := by
  unfold schedulerTimer
  dsimp only
  split
  · exact .refl k
  · split
    · exact .inl ⟨rfl, rfl, Iff.rfl, fun _ _ => id⟩
    · split_ifs
      · exact .refl k
      · have hw : Kept k (k.setScheduler { k.scheduler.clearWindow with state := .failure }) :=
          ⟨rfl, rfl, Iff.rfl, fun _ i hi => by
            simp [Conn.setScheduler, PacketsState.clearWindow] at hi⟩
        exact hw.goes.trans (goes_rapportOnRst _)
      · exact .inl ⟨rfl, rfl, Iff.rfl, fun _ _ => id⟩

end

section

variable (e : ConnEvent)

theorem goes_step (hl : e.Legal k) (hc : e.isClaim = false) (he : e ≠ .expire) :
    Goes k (k.step e) := by
  cases e with
  | syn | cookie | connect | listen => simp [ConnEvent.isClaim] at hc
  | answer g => exact goes_answer hl.2 g
  | segment now g => exact goes_receive now k g
  | accept => exact .inl ⟨rfl, rfl, Iff.rfl, fun _ _ => id⟩
  | send o data me => exact (kept_send o k data me).goes
  | close o me => exact (kept_close o k me).goes
  | recv maxLen => exact (kept_recv k maxLen).goes
  | expire => exact absurd rfl he
  | timer now => exact goes_timer now k

/-- A free slot is CLOSED, and a slot in use that is CLOSED has no remote address. -/
structure Conn.Live (k : Conn) : Prop where
  closed_of_free : k.box.inUse = false → k.rapport.status = .closed
  listener_of_closed : k.box.inUse = true → k.rapport.status = .closed → k.box.remoteIp = .zero

def Conn.WindowClear (k : Conn) : Prop := k.rapport.status = .closed → k.scheduler.Empty

theorem Goes.live (h : Goes k k') (hk : k.Live) : k'.Live := by
  rcases h with h | ⟨-, h⟩
  · refine ⟨fun hu => h.closed.mpr (hk.closed_of_free (h.inUse ▸ hu)), fun hu hc => ?_⟩
    have hip : k'.box.remoteIp = k.box.remoteIp := congrArg Tuple.remoteIp h.tuple
    rw [hip]
    exact hk.listener_of_closed (h.inUse ▸ hu) (h.closed.mp hc)
  · exact ⟨fun _ => h.closed, fun hu => by simp [h.inUse] at hu⟩

theorem Goes.windowClear (h : Goes k k') (hk : k.WindowClear) : k'.WindowClear := by
  intro hc
  rcases h with h | ⟨-, h⟩
  · exact (h.window hc).empty (hk (h.closed.mp hc))
  · exact h.window

theorem live_windowClear_of_open (hc : k.rapport.status ≠ .closed) (hu : k.box.inUse = true) :
    k.Live ∧ k.WindowClear :=
  ⟨⟨fun h => by simp [hu] at h, fun _ h => absurd h hc⟩, fun h => absurd h hc⟩

theorem claim_step_open (he : e.isClaim = true) (hn : ∀ p q, e ≠ .listen p q) :
    ∃ k₀ : Conn, k₀.box.inUse = true ∧ k₀.rapport.status ≠ .closed ∧ Goes k₀ (k.step e) ∧
      e.claimed = some k₀.box.tuple := by
  cases e with
  | syn u peerIsn ourIsn o me =>
    refine ⟨rapportOnSyn (k.claim u) peerIsn ourIsn, rfl, by simp [rapportOnSyn], ?_⟩
    exact ⟨(goes_dispatchTracked o _ _ _ _ _ me (by simp [rapportOnSyn])).goes, rfl⟩
  | cookie u now g =>
    refine ⟨rapportOnSyn (k.claim u) (g.seq - 1) (g.ack - 1), rfl, by simp [rapportOnSyn], ?_⟩
    exact ⟨(goes_rapportOnAck now _ g.ack).trans (goes_receive now _ g), rfl⟩
  | connect u ourIsn o me =>
    refine ⟨rapportInitiateConnect (k.claim u) ourIsn, rfl, by simp [rapportInitiateConnect], ?_⟩
    exact ⟨(goes_dispatchTracked o _ _ _ _ _ me (by simp [rapportInitiateConnect])).goes, rfl⟩
  | listen port protocol => exact absurd rfl (hn port protocol)
  | _ => simp [ConnEvent.isClaim] at he

theorem live_step (hk : k.Live) (hl : e.Legal k) : (k.step e).Live := by
  cases hc : e.isClaim
  · by_cases he : e = .expire
    · subst he
      exact ⟨fun _ => rfl, fun hu => by simp [Conn.step, rapportExpire, Conn.release,
        lockboxRelease] at hu⟩
    · exact (goes_step e hl hc he).live hk
  · by_cases hn : ∀ p q, e ≠ .listen p q
    · obtain ⟨k₀, hu, ho, hg, -⟩ := claim_step_open (k := k) e hc hn
      exact hg.live (live_windowClear_of_open ho hu).1
    · push Not at hn
      obtain ⟨port, protocol, rfl⟩ := hn
      exact ⟨fun h => by simp [Conn.step, Conn.claim] at h, fun _ _ => rfl⟩

theorem windowClear_step (hk : k.Live) (hw : k.WindowClear) (hl : e.Legal k)
    (he : e ≠ .expire) : (k.step e).WindowClear := by
  cases hc : e.isClaim
  · exact (goes_step e hl hc he).windowClear hw
  · by_cases hn : ∀ p q, e ≠ .listen p q
    · obtain ⟨k₀, hu, ho, hg, -⟩ := claim_step_open (k := k) e hc hn
      exact hg.windowClear (live_windowClear_of_open ho hu).2
    · push Not at hn
      obtain ⟨port, protocol, rfl⟩ := hn
      exact fun _ => hw (hk.closed_of_free hl)

end

theorem Goes.tuple (h : Goes k k') (hu : k'.box.inUse = true) :
    k.box.inUse = true ∧ k'.box.tuple = k.box.tuple := by
  rcases h with h | ⟨-, h⟩
  · exact ⟨h.inUse ▸ hu, h.tuple⟩
  · simp [h.inUse] at hu

theorem tuple_step {e : ConnEvent} (hl : e.Legal k) (hc : e.isClaim = false)
    (hu : (k.step e).box.inUse = true) :
    k.box.inUse = true ∧ (k.step e).box.tuple = k.box.tuple := by
  by_cases he : e = .expire
  · subst he
    simp [Conn.step, rapportExpire, Conn.release, lockboxRelease] at hu
  · exact (goes_step e hl hc he).tuple hu

theorem tuple_step_of_claim {e : ConnEvent} (hc : e.isClaim = true)
    (hu : (k.step e).box.inUse = true) : e.claimed = some (k.step e).box.tuple := by
  by_cases hn : ∀ p q, e ≠ .listen p q
  · obtain ⟨k₀, -, -, hg, ht⟩ := claim_step_open (k := k) e hc hn
    rw [ht, (hg.tuple hu).2]
  · push Not at hn
    obtain ⟨port, protocol, rfl⟩ := hn
    rfl

theorem unique_tableStep {t : Slot → Conn} {c : Slot} {e : ConnEvent} (h : Allowed t c e)
    (hu : LockBox.Unique fun i => (t i).box) :
    LockBox.Unique fun i => (tableStep t (c, e) i).box := by
  have hbox : (fun i => (tableStep t (c, e) i).box) =
      Function.update (fun i => (t i).box) c ((t c).step e).box := by
    funext i
    exact Function.apply_update (fun _ k => Conn.box k) t c _ i
  rw [hbox]
  cases hc : e.isClaim with
  | false => exact hu.update (tuple_step h.legal hc)
  | true =>
    by_cases hin : ((t c).step e).box.inUse = true
    · have hclaimed := tuple_step_of_claim hc hin
      obtain ⟨b, hb⟩ := h.granted _ hclaimed
      exact hu.new (lockboxClaim_ok hb).1 rfl
    · exact hu.update fun hin' => absurd hin' hin

theorem Net.Extends.unique {P : ConnEvent → Prop} {o : Office} {s : Net}
    (h : (Net.boot o).Extends P s) : s.lockbox.Unique := by
  obtain ⟨as, -, hc, ha⟩ := h
  have hrun : LockBox.Unique fun i => (run tableStep (Net.boot o).conns as i).box :=
    ha.run_invariant (I := fun t => LockBox.Unique fun i => (t i).box)
      (fun t a hu ha => unique_tableStep ha.1 hu) (fun i j hi => by simp [Net.boot] at hi)
  rwa [← hc] at hrun

/-- A slot with a remote address is in use while it is not CLOSED, and else tracks no segment. -/
def Net.LifeCycle (s : Net) : Prop := ∀ c,
  ((s.conns c).box.protocol = 6 → (s.conns c).box.remoteIp ≠ .zero →
    ((s.conns c).box.inUse = true ↔ (s.conns c).rapport.status ≠ .closed)) ∧
  ((s.conns c).rapport.status = .closed → (s.conns c).scheduler.Empty) ∧
  ((s.conns c).box.inUse = false → (s.conns c).scheduler.Empty)

/-- When `rapport_tick` runs, no slot whose wait is over still tracks a segment. -/
def WaitEndsClear (s : Net) (e : Event) : Prop :=
  e = .rapportTick → ∀ c, timeWaitExpired s.office.ticks (s.conns c) = true →
    (s.conns c).scheduler.Empty

def Net.Live (s : Net) : Prop := ∀ c, (s.conns c).Live

theorem Net.live_step (s : Net) (e : Event) (h : s.Live) : (s.step e).Live := fun c =>
  (Net.extends_step s e).preserves (fun _ e hk hl _ => Aevros.live_step e hk hl) (h c)

theorem Net.live_boot (o : Office) : (Net.boot o).Live := fun _ => ⟨fun _ => rfl, fun _ _ => rfl⟩

theorem Net.lifeCycle_iff {s : Net} (h : s.Live) : s.LifeCycle ↔ ∀ c, (s.conns c).WindowClear := by
  constructor
  · exact fun hq c => (hq c).2.1
  · intro hw c
    refine ⟨fun _ hip => ⟨fun hu hc => hip ((h c).listener_of_closed hu hc), fun hc => ?_⟩, hw c,
      fun hu => hw c ((h c).closed_of_free hu)⟩
    by_contra hu
    exact hc ((h c).closed_of_free (by simpa using hu))

theorem windowClear_step_iff (s : Net) (e : Event) (h : s.Live)
    (hw : ∀ c, (s.conns c).WindowClear) :
    (∀ c, ((s.step e).conns c).WindowClear) ↔ WaitEndsClear s e := by
  by_cases he : e = .rapportTick
  · subst he
    simp only [Net.step, Net.rapportTick_conns, WaitEndsClear, forall_const]
    refine forall_congr' fun c => ?_
    split_ifs with ht
    · simp only [ht, forall_const]
      exact ⟨fun hc => hc rfl, fun hc _ => hc⟩
    · simp [ht, hw c]
  · refine iff_of_true (fun c => ?_) (fun h' => absurd h' he)
    exact ((Net.extends_step_of_ne s he).preserves (J := fun k => k.Live ∧ k.WindowClear)
      (fun k e hk hl hx => ⟨Aevros.live_step e hk.1 hl, windowClear_step e hk.1 hk.2 hl hx⟩)
      ⟨h c, hw c⟩).2

/-- The invariant holds in every state exactly if TIME_WAIT ends only with empty windows. -/
theorem lifeCycle_iff_wait_ends_clear (o : Office) (es : List Event) :
    Along Net.step (fun s e => (s.step e).LifeCycle) (Net.boot o) es ↔
      Along Net.step WaitEndsClear (Net.boot o) es := by
  refine along_iff_of_survives (I := Net.Live) Net.live_step ?_ (Net.live_boot o) ?_ es
  · intro s e hs hq
    rw [Net.lifeCycle_iff hs] at hq
    rw [Net.lifeCycle_iff (Net.live_step s e hs)]
    exact windowClear_step_iff s e hs hq
  · rw [Net.lifeCycle_iff (Net.live_boot o)]
    exact fun _ _ _ => rfl

def lateAckRun : List Event :=
  sampleHandshake ++ [.close 1, fromPeer 8 (sampleIsn + 2 + 0x80000000) 0x10 [],
    fromPeer 8 (sampleIsn + 2 + 0x80000000) 0x11 [], .clock 400, .rapportTick]

theorem wait_end_leaves_segment_tracked :
    let s := run Net.step (Net.boot sampleOffice) lateAckRun
    (s.conns 1).rapport.status = .closed ∧ (s.conns 1).box.inUse = false ∧
      ((s.conns 1).scheduler.seg 0).inUse = true := by
  decide +kernel

end Aevros
