import Aevros.Guarantees.LifeCycle

/-! # What a connection has received

In every run the expected sequence number is the first number of the peer's stream plus the bytes
deposited, plus one once the FIN was consumed.
-/

namespace Aevros

/-- How far a conversation is, as far as receiving is concerned. -/
inductive Phase
  | idle
  | sent
  | received
  | «open»
  | ended
  deriving DecidableEq

/-- CLOSED, and the two states that nothing ever enters, are idle. -/
def ConversationState.phase : ConversationState → Phase
  | .closed | .listen | .finWait => .idle
  | .synSent => .sent
  | .synReceived => .received
  | .established | .finWait1 | .finWait2 => .open
  | .closeWait | .lastAck | .closing | .timeWait => .ended

def Conn.phase (k : Conn) : Phase := k.rapport.status.phase

def Conn.HandshakeAck (k : Conn) (g : Segment) : Prop :=
  g.isAck = true ∧ g.ack = k.rapport.ourIsn + 1

instance (k : Conn) (g : Segment) : Decidable (k.HandshakeAck g) :=
  inferInstanceAs (Decidable (_ ∧ _))

def Conn.Answers (k : Conn) (g : Segment) : Prop :=
  g.rst = false ∧ g.syn = true ∧ k.HandshakeAck g

instance (k : Conn) (g : Segment) : Decidable (k.Answers g) :=
  inferInstanceAs (Decidable (_ ∧ _))

def Conn.Completes (k : Conn) (g : Segment) : Prop := k.phase = .received ∧ k.HandshakeAck g

instance (k : Conn) (g : Segment) : Decidable (k.Completes g) :=
  inferInstanceAs (Decidable (_ ∧ _))

/-- The phase in which the payload and the FIN of an in-order segment are handled. -/
def Conn.phaseAfterAck (k : Conn) (g : Segment) : Phase :=
  if k.Completes g then .open else k.phase

variable {k k' k'' : Conn} {g : Segment} {now : Word}

/-- The slot was let go; LockBox's account of it stays. -/
structure Freed (k k' : Conn) : Prop extends Dropped k' where
  buffered : k'.box.bufferedBytes = k.box.bufferedBytes

theorem freed_letGo (k : Conn) : Freed k (letGo k) := ⟨dropped_letGo k, rfl⟩

theorem Freed.phase (h : Freed k k') : k'.phase = .idle := by rw [Conn.phase, h.closed]; rfl

section

variable (now : Word)

theorem rapportOnAck_spec (k : Conn) (ackNum : Word) : ((rapportOnAck now k ackNum).box = k.box ∧
        (rapportOnAck now k ackNum).rapport.expectedSeq = k.rapport.expectedSeq ∧
        (rapportOnAck now k ackNum).phase =
          if k.phase = .received ∧ ackNum = k.rapport.ourIsn + 1 then .open else k.phase) ∨
      k.phase = .ended ∧ rapportOnAck now k ackNum = letGo k := by
  cases hs : k.rapport.status with
  | synReceived =>
    have hp : k.phase = .received := by rw [Conn.phase, hs]; rfl
    simp only [rapportOnAck, hs, hp, true_and]
    by_cases he : ackNum = k.rapport.ourIsn + 1
    · rw [if_neg (not_not.mpr he), if_pos he]
      exact .inl ⟨rfl, rfl, rfl⟩
    · rw [if_pos he, if_neg he]
      exact .inl ⟨rfl, rfl, hp⟩
  | lastAck =>
    have hp : k.phase = .ended := by rw [Conn.phase, hs]; rfl
    rw [if_neg (by simp [hp])]
    simp only [rapportOnAck, hs]
    split_ifs
    · exact .inr ⟨hp, rfl⟩
    · exact .inl ⟨rfl, rfl, rfl⟩
  | finWait1 =>
    have hp : k.phase = .open := by rw [Conn.phase, hs]; rfl
    rw [if_neg (by simp [hp]), hp]
    simp only [rapportOnAck, hs]
    split_ifs
    · exact .inl ⟨rfl, rfl, rfl⟩
    · exact .inl ⟨rfl, rfl, hp⟩
  | closing =>
    have hp : k.phase = .ended := by rw [Conn.phase, hs]; rfl
    rw [if_neg (by simp [hp]), hp]
    simp only [rapportOnAck, hs]
    split_ifs
    · exact .inl ⟨rfl, rfl, rfl⟩
    · exact .inl ⟨rfl, rfl, hp⟩
  | _ =>
    simp [rapportOnAck, Conn.phase, hs, ConversationState.phase]

theorem takeAck_spec (k : Conn) (g : Segment) : ((k.takeAck now g).2.box = k.box ∧
        (k.takeAck now g).2.rapport.expectedSeq = k.rapport.expectedSeq ∧
        (k.takeAck now g).2.phase = k.phaseAfterAck g) ∨
      k.phase = .ended ∧ Freed k (k.takeAck now g).2 := by
  unfold Conn.takeAck
  split_ifs with ha
  · have hp : k.phaseAfterAck g =
        if k.phase = .received ∧ g.ack = k.rapport.ourIsn + 1 then .open else k.phase := by
      simp [Conn.phaseAfterAck, Conn.Completes, Conn.HandshakeAck, ha]
    rw [hp]
    rcases rapportOnAck_spec now k g.ack with h | ⟨hp, h⟩
    · exact .inl h
    · have hd : Freed k (rapportOnAck now k g.ack) := h ▸ freed_letGo k
      exact .inr ⟨hp, hd.toDropped.kept (kept_ack now _ g.ack), hd.buffered⟩
  · rw [Conn.phaseAfterAck, if_neg fun h => ha h.2.1]
    exact .inl ⟨rfl, rfl, rfl⟩

theorem rapportOnFin_spec (k : Conn) : (rapportOnFin now k).box = k.box ∧
      if k.phase = .open then (rapportOnFin now k).phase = .ended ∧
        (rapportOnFin now k).rapport.expectedSeq = k.rapport.expectedSeq + 1
      else rapportOnFin now k = k := by
  unfold rapportOnFin Conn.phase
  cases hs : k.rapport.status <;>
    simp [ConversationState.phase, Conn.setStatus, rapportAdvanceSeq, enterTimeWait]

/-- What an arriving segment does to the entry, the expected number and the phase. -/
inductive Received (k : Conn) (g : Segment) : Conn → Prop
  /-- Out of order: nothing is delivered. -/
  | outOfOrder {k' : Conn} (hseq : g.seq ≠ k.rapport.expectedSeq) (hbox : k'.box = k.box)
      (hexp : k'.rapport.expectedSeq = k.rapport.expectedSeq) (hphase : k'.phase = k.phase) :
      Received k g k'
  /-- The slot is let go, by a RST or the last acknowledgement. -/
  | dropped {k' : Conn} (h : Freed k k') (hseq : g.seq = k.rapport.expectedSeq)
      (hw : g.rst = true ∨ k.phase = .ended) : Received k g k'
  | ignored {k' : Conn} (hrst : g.rst = true) (hk : k' = rapportSetPeerWindow k g.window)
      (hp : k.phase = .idle) : Received k g k'
  /-- In order: `n` bytes are delivered, and then the FIN is consumed if there is one. -/
  | inOrder {k' : Conn} (n : ℕ) (hseq : g.seq = k.rapport.expectedSeq) (hrst : g.rst = false)
      (hbox : k'.box = { k.box with bufferedBytes := k.box.bufferedBytes + n })
      (hn : if g.data ≠ [] ∧ k.Fits g.data then g.data.length ≤ n else n = 0)
      (hmax : n ≤ lockboxMaxBuffered)
      (hphase : k'.phase =
        if g.fin = true ∧ k.phaseAfterAck g = .open then .ended else k.phaseAfterAck g)
      (hexp : k'.rapport.expectedSeq = k.rapport.expectedSeq + BitVec.ofNat 32 n +
        if g.fin = true ∧ k.phaseAfterAck g = .open then 1 else 0) : Received k g k'

theorem outOfOrder_frame (k : Conn) (g : Segment) :
    (k.outOfOrder now g).2.box = k.box ∧ (k.outOfOrder now g).2.rapport = k.rapport := by
  obtain ⟨w, hw⟩ := k.outOfOrder_snd now g
  rw [hw]
  exact ⟨rfl, rfl⟩

theorem received_inOrder (k : Conn) (g : Segment)
    (hseq : g.seq = k.rapport.expectedSeq) (hrst : g.rst = false) :
    Received k g (k.inOrder now g).2 := by
  obtain ⟨n, hd, hn⟩ := delivered_deliver (k.takeAck now g).2 g.data
  obtain ⟨hfbox, hfin⟩ := rapportOnFin_spec now ((k.takeAck now g).2.deliver g.data)
  have hk : (k.inOrder now g).2 = if g.fin then rapportOnFin now
      ((k.takeAck now g).2.deliver g.data) else (k.takeAck now g).2.deliver g.data := rfl
  rcases takeAck_spec now k g with ⟨hbox, hexp, hphase⟩ | ⟨hp, hdrop⟩
  · have hdp : ((k.takeAck now g).2.deliver g.data).phase = k.phaseAfterAck g := by
      rw [← hphase, Conn.phase, hd.status]; rfl
    have hfits : (k.takeAck now g).2.Fits g.data ↔ k.Fits g.data := by
      rw [Conn.Fits, Conn.Fits, hbox]
    have hmax : n ≤ lockboxMaxBuffered := by rcases hd.room with rfl | h <;> omega
    refine .inOrder n hseq hrst ?_ (by simpa only [hfits] using hn) hmax ?_ ?_
    · rw [hk]
      split_ifs
      · rw [hfbox, hd.box, hbox]
      · rw [hd.box, hbox]
    · rw [hk]
      rw [hdp] at hfin
      by_cases hf : g.fin = true
      · simp only [hf, if_true, true_and]
        split_ifs at hfin ⊢ with ho
        · exact hfin.1
        · rw [hfin, hdp]
      · rw [if_neg hf, if_neg fun h => hf h.1]
        exact hdp
    · rw [hk]
      rw [hdp] at hfin
      by_cases hf : g.fin = true
      · simp only [hf, if_true, true_and]
        split_ifs at hfin ⊢ with ho
        · rw [hfin.2, hd.expectedSeq, hexp]
        · rw [hfin, hd.expectedSeq, hexp]; simp
      · rw [if_neg hf, if_neg fun h => hf h.1, hd.expectedSeq, hexp]
        simp
  · have hz : n = 0 := by simpa [Conn.Fits, hdrop.inUse] using hn
    have hdd : Freed k ((k.takeAck now g).2.deliver g.data) :=
      ⟨hdrop.toDropped.kept hd.kept, by rw [hd.buffered, hdrop.buffered, hz, Nat.add_zero]⟩
    rw [hk]
    split_ifs
    · have hff : Freed k (rapportOnFin now ((k.takeAck now g).2.deliver g.data)) :=
        ⟨hdd.toDropped.kept (kept_rapportOnFin now _), by rw [hfbox, hdd.buffered]⟩
      exact .dropped hff hseq (.inr hp)
    · exact .dropped hdd hseq (.inr hp)

theorem Received.of_setPeerWindow {w : Port} (h : Received (rapportSetPeerWindow k w) g k')
    (hw : g.rst = false) : Received k g k' := by
  cases h with
  | outOfOrder hseq hbox hexp hphase => exact .outOfOrder hseq hbox hexp hphase
  | dropped hd hseq hw => exact .dropped ⟨hd.toDropped, hd.buffered⟩ hseq hw
  | ignored hrst => simp [hw] at hrst
  | inOrder n hseq hrst hbox hn hmax hphase hexp =>
    exact .inOrder n hseq hrst hbox hn hmax hphase hexp

theorem received_receive (k : Conn) (g : Segment) :
    Received k g (conversationReceive now k g).2 := by
  unfold conversationReceive
  dsimp only
  split_ifs with hseq hrst
  · obtain ⟨hbox, hrap⟩ := outOfOrder_frame now (rapportSetPeerWindow k g.window) g
    refine .outOfOrder hseq hbox (by rw [hrap]; rfl) ?_
    rw [Conn.phase, hrap]
    rfl
  · unfold rapportOnRst
    split_ifs with hc
    · have hp : k.phase = .idle := by
        rw [Conn.phase, show k.rapport.status = .closed from hc]; rfl
      exact .ignored hrst rfl hp
    · exact .dropped ⟨dropped_letGo _, rfl⟩ (not_not.mp hseq) (.inl hrst)
  · have hrst' : g.rst = false := by simpa using hrst
    exact (received_inOrder now _ g (not_not.mp hseq) hrst').of_setPeerWindow hrst'

end

structure Ledger where
  first : Word := 0
  deposited : ℕ := 0
  acked : Bool := false
  deriving DecidableEq

namespace Ledger

def note (l : Ledger) (k : Conn) : ConnEvent → Ledger
  | .syn _ peerIsn _ _ _ => ⟨peerIsn + 1, 0, false⟩
  | .cookie _ _ g => ⟨g.seq, 0, true⟩
  | .connect .. | .listen .. => ⟨0, 0, false⟩
  | .answer g => if k.Answers g then ⟨g.seq + 1, 0, true⟩ else l
  | .segment _ g =>
    { l with acked := l.acked ||
        decide (g.seq = k.rapport.expectedSeq ∧ g.rst = false ∧ k.Completes g) }
  | _ => l

def added (k : Conn) (e : ConnEvent) : ℕ :=
  (k.step e).box.bufferedBytes - if e.isClaim then 0 else k.box.bufferedBytes

def next (l : Ledger) (k : Conn) (e : ConnEvent) : Ledger :=
  { l.note k e with deposited := (l.note k e).deposited + added k e }

end Ledger

abbrev Watch := Conn × Ledger

def Watch.step (w : Watch) (e : ConnEvent) : Watch := (w.1.step e, w.2.next w.1 e)

def Watch.boot : Watch := ({}, {})

theorem Watch.run_fst (w : Watch) (es : List ConnEvent) :
    (Runs.run Watch.step w es).1 = Runs.run Conn.step w.1 es := by
  induction es generalizing w with
  | nil => rfl
  | cons e es ih => exact ih _

theorem Watch.along_iff {P : Conn → ConnEvent → Prop} (w : Watch) (es : List ConnEvent) :
    Runs.Along Watch.step (fun w e => P w.1 e) w es ↔ Runs.Along Conn.step P w.1 es := by
  induction es generalizing w with
  | nil => exact Iff.rfl
  | cons e es ih => exact and_congr Iff.rfl (ih _)

/-- What a ledger says about the phase and the expected number of a conversation. -/
structure Ledger.Matches (l : Ledger) (p : Phase) (x : Word) : Prop where
  expected : p = .received ∨ p = .open → x = l.first + BitVec.ofNat 32 l.deposited
  ended : p = .ended → x = l.first + BitVec.ofNat 32 l.deposited + 1
  acked : l.acked = true ↔ p = .open ∨ p = .ended

namespace Ledger.Matches

variable {l : Ledger} {p : Phase} {x : Word}

theorem of_early (hp : p = .idle ∨ p = .sent) (ha : l.acked = false) : l.Matches p x := by
  rcases hp with rfl | rfl <;> exact ⟨by simp, by simp, by simp [ha]⟩

theorem add (h : l.Matches p x) (n : ℕ) :
    { l with deposited := l.deposited + n }.Matches p (x + BitVec.ofNat 32 n) where
  expected hp := by rw [h.expected hp, BitVec.ofNat_add, BitVec.add_assoc]
  ended hp := by
    rw [h.ended hp, BitVec.ofNat_add]
    ac_rfl
  acked := h.acked

theorem fin (h : l.Matches .open x) : l.Matches .ended (x + 1) where
  expected hp := by simp at hp
  ended _ := by rw [h.expected (.inr rfl)]
  acked := iff_of_true (h.acked.mpr (.inl rfl)) (.inr rfl)

theorem ack (h : l.Matches k.phase x) :
    { l with acked := l.acked || decide (k.Completes g) }.Matches (k.phaseAfterAck g) x := by
  unfold Conn.phaseAfterAck
  split_ifs with hc
  · exact ⟨fun _ => h.expected (.inl hc.1), by simp, by simp [hc]⟩
  · exact ⟨h.expected, h.ended, by simpa [hc] using h.acked⟩

end Ledger.Matches

structure Agrees (w : Watch) : Prop where
  live : w.1.Live
  matches_ : w.1.box.inUse = true → w.2.Matches w.1.phase w.1.rapport.expectedSeq

theorem Agrees.boot : Agrees Watch.boot :=
  ⟨⟨fun _ => rfl, fun _ _ => rfl⟩, fun h => by simp [Watch.boot] at h⟩

theorem Agrees.of_free (hl : k.Live) (hu : k.box.inUse = false) (l : Ledger) : Agrees (k, l) :=
  ⟨hl, fun h => by simp [hu] at h⟩

/-- The slot stays as it is, up to bytes that were read. -/
structure Quiet (k k' : Conn) : Prop where
  inUse : k'.box.inUse = k.box.inUse
  buffered : k'.box.bufferedBytes ≤ k.box.bufferedBytes
  expectedSeq : k'.rapport.expectedSeq = k.rapport.expectedSeq
  phase : k'.phase = k.phase

theorem Quiet.agrees {l : Ledger} (h : Quiet k k') (ha : Agrees (k, l)) (hl : k'.Live) :
    Agrees (k', { l with
      deposited := l.deposited + (k'.box.bufferedBytes - k.box.bufferedBytes) }) := by
  have hz : k'.box.bufferedBytes - k.box.bufferedBytes = 0 := by
    have := h.buffered
    omega
  refine ⟨hl, fun hu => ?_⟩
  rw [hz, h.phase, h.expectedSeq]
  exact ha.matches_ (h.inUse ▸ hu)

theorem quiet_dispatchTracked (o : Office) (k : Conn) (flags : Byte) (seq ack : Word)
    (payload : List Byte) (seqLen : ℕ) (me : Identity) :
    Quiet k (dispatchTracked o k flags seq ack payload seqLen me).2.2 := by
  obtain ⟨b, w, p, h, -⟩ := dispatchTracked_conn o k flags seq ack payload seqLen me
  rw [h]
  exact ⟨rfl, le_rfl, rfl, rfl⟩

theorem Quiet.trans (h : Quiet k k') (h' : Quiet k' k'') : Quiet k k'' :=
  ⟨h'.inUse.trans h.inUse, h'.buffered.trans h.buffered, h'.expectedSeq.trans h.expectedSeq,
    h'.phase.trans h.phase⟩

theorem Quiet.refl (k : Conn) : Quiet k k := ⟨rfl, le_rfl, rfl, rfl⟩

theorem quiet_send (o : Office) (k : Conn) (data : List Byte) (me : Identity) :
    Quiet k (switchboardSend o k data me).2.2 := by
  apply (switchboardSend_outcome o k data me).row (.refl k)
  · exact ⟨rfl, le_rfl, rfl, rfl⟩
  · exact fun _ _ => ⟨rfl, le_rfl, rfl, rfl⟩

theorem quiet_initiateClose (k : Conn) (finSeq : Word) :
    Quiet k (rapportInitiateClose k finSeq) := by
  unfold rapportInitiateClose
  dsimp only
  split
  · rename_i hs
    exact ⟨rfl, le_rfl, rfl, by simp [Conn.phase, Conn.setStatus, hs, ConversationState.phase]⟩
  · rename_i hs
    exact ⟨rfl, le_rfl, rfl, by simp [Conn.phase, Conn.setStatus, hs, ConversationState.phase]⟩
  · exact ⟨rfl, le_rfl, rfl, rfl⟩

theorem quiet_close (o : Office) (k : Conn) (me : Identity) :
    Quiet k (switchboardClose o k me).2.2 := by
  apply (switchboardClose_outcome o k me).row (.refl k)
  · exact ⟨rfl, le_rfl, rfl, rfl⟩
  · intro _ frame
    refine Quiet.trans ?_ (quiet_initiateClose _ _)
    exact ⟨rfl, le_rfl, rfl, rfl⟩

theorem quiet_recv (k : Conn) (maxLen : ℕ) : Quiet k (switchboardRecv k maxLen).2 := by
  unfold switchboardRecv
  split_ifs
  · exact .refl k
  · obtain ⟨m, hm, hbox⟩ := k.read_box maxLen
    exact ⟨by rw [hbox], by rw [hbox]; exact hm, rfl, rfl⟩

theorem quiet_timer (now : Word) (k : Conn) :
    Quiet k (schedulerTimer now k).2 ∨ Freed k (schedulerTimer now k).2 := by
  unfold schedulerTimer
  dsimp only
  split
  · exact .inl (.refl k)
  · split
    · exact .inl ⟨rfl, le_rfl, rfl, rfl⟩
    · split_ifs
      · exact .inl (.refl k)
      · unfold rapportOnRst
        split_ifs
        · exact .inl ⟨rfl, le_rfl, rfl, rfl⟩
        · exact .inr ⟨dropped_letGo _, rfl⟩
      · exact .inl ⟨rfl, le_rfl, rfl, rfl⟩

theorem Agrees.receive {l : Ledger} (ha : Agrees (k, l)) (hu : k.box.inUse = true)
    (hr : Received k g k') (hl : k'.Live) :
    Agrees (k', ⟨l.first, l.deposited + (k'.box.bufferedBytes - k.box.bufferedBytes),
      l.acked || decide (g.seq = k.rapport.expectedSeq ∧ g.rst = false ∧ k.Completes g)⟩) := by
  have hm : l.Matches k.phase k.rapport.expectedSeq := ha.matches_ hu
  refine ⟨hl, fun hu' => ?_⟩
  cases hr with
  | dropped hd => simp [hd.inUse] at hu'
  | ignored hrst hk hp =>
    have hna : l.acked = false := by
      rw [hp] at hm
      simpa using hm.acked
    rw [hk]
    exact .of_early (.inl hp) (by simp [hna, hrst])
  | outOfOrder hseq hbox hexp hphase =>
    simp only [hseq, false_and, decide_false, Bool.or_false]
    rw [hbox, Nat.sub_self, hphase, hexp]
    exact hm
  | inOrder n hseq hrst hbox hn hmax hphase hexp =>
    have hadd : k'.box.bufferedBytes - k.box.bufferedBytes = n := by rw [hbox]; simp
    simp only [hseq, hrst, true_and]
    rw [hadd, hphase, hexp]
    have hack := (hm.ack (g := g)).add n
    split_ifs with hf
    · rw [hf.2] at hack
      exact hack.fin
    · simpa using hack

def Conn.opened (k : Conn) (u : Tuple) (g : Segment) : Conn :=
  (rapportOnSyn (k.claim u) (g.seq - 1) (g.ack - 1)).setStatus .established

theorem step_cookie (k : Conn) (u : Tuple) (now : Word) (g : Segment) :
    k.step (.cookie u now g) = (conversationReceive now (k.opened u g) g).2 := by
  have h : rapportOnAck now (rapportOnSyn (k.claim u) (g.seq - 1) (g.ack - 1)) g.ack =
      k.opened u g := if_neg (not_not.mpr (BitVec.sub_add_cancel g.ack 1).symm)
  rw [Conn.step, h]

theorem agrees_syn (k : Conn) (u : Tuple) (peerIsn ourIsn : Word) :
    Agrees (rapportOnSyn (k.claim u) peerIsn ourIsn, ⟨peerIsn + 1, 0, false⟩) where
  live := ⟨fun h => by simp [rapportOnSyn, Conn.claim] at h, fun _ h => by simp [rapportOnSyn] at h⟩
  matches_ _ := by
    have hp : (rapportOnSyn (k.claim u) peerIsn ourIsn).phase = .received := rfl
    rw [hp]
    exact ⟨fun _ => by simp [rapportOnSyn], by simp, by simp⟩

theorem agrees_opened (k : Conn) (u : Tuple) (g : Segment) :
    Agrees (k.opened u g, ⟨g.seq, 0, true⟩) where
  live := ⟨fun h => by simp [Conn.opened, Conn.setStatus, rapportOnSyn, Conn.claim] at h,
    fun _ h => by simp [Conn.opened, Conn.setStatus] at h⟩
  matches_ _ := by
    have hp : (k.opened u g).phase = .open := rfl
    rw [hp]
    exact ⟨fun _ => (BitVec.sub_add_cancel g.seq 1).trans (BitVec.add_zero g.seq).symm,
      by simp, by simp⟩

theorem conversationAnswer_spec (hs : k.rapport.status = .synSent) (g : Segment) :
    Freed k (conversationAnswer k g) ∨
    (k.Answers g ∧ (conversationAnswer k g).box = k.box ∧
      (conversationAnswer k g).rapport.expectedSeq = g.seq + 1 ∧
      (conversationAnswer k g).phase = .open) ∨
    (¬ k.Answers g ∧ conversationAnswer k g = k) := by
  unfold conversationAnswer Conn.Answers Conn.HandshakeAck
  by_cases hr : g.rst = true
  · rw [if_pos hr, rapportOnRst, if_neg (by simp [hs])]
    exact .inl (freed_letGo k)
  · refine .inr ?_
    rw [if_neg hr]
    by_cases hsa : g.syn = true ∧ g.isAck = true
    · rw [if_pos (by simp [hsa]), rapportOnSynAck, if_neg (by simp [hs])]
      by_cases ha : g.ack = k.rapport.ourIsn + 1
      · rw [if_neg (not_not.mpr ha)]
        exact .inl ⟨⟨by simpa using hr, hsa.1, hsa.2, ha⟩, rfl, rfl, rfl⟩
      · rw [if_pos ha]
        exact .inr ⟨fun h => ha h.2.2.2, rfl⟩
    · rw [if_neg (by simpa using hsa)]
      exact .inr ⟨fun h => hsa ⟨h.2.1, h.2.2.1⟩, rfl⟩

theorem agrees_answer {l : Ledger} (ha : Agrees (k, l)) (hu : k.box.inUse = true)
    (hs : k.rapport.status = .synSent) (hl : (conversationAnswer k g).Live) :
    Agrees (Watch.step (k, l) (.answer g)) := by
  have hp : k.phase = .sent := by rw [Conn.phase, hs]; rfl
  have hm : l.Matches k.phase k.rapport.expectedSeq := ha.matches_ hu
  refine ⟨hl, fun hu => ?_⟩
  have hstep : k.step (.answer g) = conversationAnswer k g := rfl
  simp only [Watch.step, hstep] at hu ⊢
  rcases conversationAnswer_spec hs g with hd | ⟨ha, hbox, hexp, hphase⟩ | ⟨ha, hk⟩
  · simp [hd.inUse] at hu
  · have hnext : l.next k (.answer g) = ⟨g.seq + 1, 0, true⟩ := by
      simp [Ledger.next, Ledger.note, Ledger.added, hstep, hbox, ha, ConnEvent.isClaim]
    rw [hnext, hphase, hexp]
    exact ⟨fun _ => by simp, by simp, by simp⟩
  · have hnext : (l.next k (.answer g)).acked = l.acked := by
      simp [Ledger.next, Ledger.note, ha]
    rw [hp] at hm
    rw [hk, hp]
    exact .of_early (.inr rfl) (by simpa [hnext] using hm.acked)

theorem Agrees.step {w : Watch} (ha : Agrees w) (e : ConnEvent) (hl : e.Legal w.1) :
    Agrees (w.step e) := by
  obtain ⟨k, l⟩ := w
  have hlive := live_step e ha.live hl
  have quiet : ∀ k', Quiet k k' → k'.Live → Agrees (k', { l with
      deposited := l.deposited + (k'.box.bufferedBytes - k.box.bufferedBytes) }) :=
    fun k' hq hk => hq.agrees ha hk
  cases e with
  | syn u peerIsn ourIsn o me =>
    exact (quiet_dispatchTracked o (rapportOnSyn (k.claim u) peerIsn ourIsn)
      (flagSyn ||| flagAck) ourIsn (peerIsn + 1) [] 1 me).agrees (agrees_syn k u peerIsn ourIsn)
      hlive
  | cookie u now g =>
    have hstep := step_cookie k u now g
    have h := (agrees_opened k u g).receive rfl (received_receive now (k.opened u g) g)
      (hstep ▸ hlive)
    rwa [← hstep] at h
  | connect u ourIsn o me =>
    refine ⟨hlive, fun _ => .of_early (.inr ?_) rfl⟩
    exact (quiet_dispatchTracked o (rapportInitiateConnect (k.claim u) ourIsn) flagSyn ourIsn 0
      [] 1 me).phase
  | listen port protocol =>
    refine ⟨hlive, fun _ => .of_early (.inl ?_) rfl⟩
    have hc : k.rapport.status = .closed := ha.live.closed_of_free hl
    simp only [Watch.step, Conn.phase, Conn.step, Conn.claim, hc]
    rfl
  | answer g => exact agrees_answer ha hl.1 hl.2 hlive
  | segment now g => exact ha.receive hl.1 (received_receive now k g) hlive
  | accept => exact quiet _ ⟨rfl, le_rfl, rfl, rfl⟩ hlive
  | send o data me => exact quiet _ (quiet_send o k data me) hlive
  | close o me => exact quiet _ (quiet_close o k me) hlive
  | recv maxLen => exact quiet _ (quiet_recv k maxLen) hlive
  | expire => exact .of_free hlive rfl _
  | timer now =>
    rcases quiet_timer now k with hq | hf
    · exact quiet _ hq hlive
    · exact .of_free hlive hf.inUse _

end Aevros
