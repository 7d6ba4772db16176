import Aevros.Sockets.Journal
import Aevros.Tcp.Dispatch

/-! # Generations of a slot

As long as the 32-bit generation has not come round, every connection starts with an empty ring, and
LockBox's account and the ring agree.
-/

namespace Aevros

variable {k k' k'' : Conn} {n : ℕ}

/-- Ring and holding area have met only the present generation, and the slot was not handed out. -/
structure Tends (k k' : Conn) : Prop where
  generation : k'.box.generation = k.box.generation
  inbox : k'.inbox.seenGeneration = k.inbox.seenGeneration ∨
    k'.inbox.seenGeneration = k.box.generation
  waystation : k'.waystation.seenGeneration = k.waystation.seenGeneration ∨
    k'.waystation.seenGeneration = k.box.generation
  synced : Synced k.box k.inbox → Synced k'.box k'.inbox
  accepted : k'.acceptedGeneration = k.acceptedGeneration

namespace Tends

theorem refl (k : Conn) : Tends k k := ⟨rfl, .inl rfl, .inl rfl, id, rfl⟩

theorem trans (h : Tends k k') (h' : Tends k' k'') : Tends k k'' where
  generation := h'.generation.trans h.generation
  inbox := by
    rcases h'.inbox with hi | hi
    · rw [hi]; exact h.inbox
    · exact .inr (hi.trans h.generation)
  waystation := by
    rcases h'.waystation with hw | hw
    · rw [hw]; exact h.waystation
    · exact .inr (hw.trans h.generation)
  synced hs := h'.synced (h.synced hs)
  accepted := h'.accepted.trans h.accepted

section

variable (k : Conn)

theorem other (r : Rapport) (p : PacketsState) : Tends k { k with rapport := r, scheduler := p } :=
  ⟨rfl, .inl rfl, .inl rfl, id, rfl⟩

theorem release : Tends k k.release :=
  ⟨rfl, .inl rfl, .inl rfl, fun h => ⟨h.readPos_lt, h.writePos_eq, h.count_eq, h.buffered_le⟩, rfl⟩

theorem letGo : Tends k (letGo k) :=
  (other k { k.rapport with status := .closed } (schedulerCancel k.scheduler)).trans (release _)

theorem held (slots : Fin waystationMaxPending → HeldSegment) :
    Tends k { k with waystation := { k.waystation with slots := slots } } :=
  ⟨rfl, .inl rfl, .inl rfl, id, rfl⟩

theorem resetWaystation : Tends k k.resetWaystation := by
  refine ⟨rfl, .inl rfl, ?_, id, rfl⟩
  unfold Conn.resetWaystation WayStation.resetIfStale
  split_ifs
  · exact .inr rfl
  · exact .inl rfl

theorem resetInbox : Tends k { k with inbox := k.inbox.resetIfStale k.box.generation } :=
  ⟨rfl, .inr (Inbox.resetIfStale_seen _ _), .inl rfl, synced_resetIfStale.mpr, rfl⟩

theorem deposit (data : List Byte) : Tends k (k.deposit data).2 := by
  by_cases hf : k.Fits data
  · have ha := (Conn.deposit_fst data).mpr hf
    refine ⟨?_, .inr (inboxDeposit_seen data), .inl rfl, fun h => (h.deposit ha).1, rfl⟩
    change (inboxDeposit k.box k.inbox data).2.1.generation = _
    rw [inboxDeposit_accepted ha]
  · rw [Conn.deposit_refused hf]
    exact resetInbox k

theorem read (maxLen : ℕ) : Tends k (k.read maxLen).2 := by
  obtain ⟨m, -, hbox⟩ := k.read_box maxLen
  refine ⟨by rw [hbox], .inr ?_, .inl rfl, fun h => (h.read maxLen).1, rfl⟩
  exact Inbox.resetIfStale_seen _ _

end

theorem drainRounds (r : ℕ) (k : Conn) : Tends k (drainRounds r k) := by
  induction r generalizing k with
  | zero => exact refl k
  | succ r ih =>
    rw [Aevros.drainRounds]
    split
    · exact refl k
    · rename_i i _
      have hd := deposit k (k.waystation.slots i).data
      dsimp only
      split_ifs
      · exact hd
      · have ha := other (k.deposit (k.waystation.slots i).data).2
          (rapportAdvanceSeq (k.deposit (k.waystation.slots i).data).2
            (k.waystation.slots i).data.length).rapport k.scheduler
        exact ((hd.trans ha).trans (held _ _)).trans (ih _)

theorem deliver (k : Conn) (data : List Byte) : Tends k (k.deliver data) := by
  have hd := deposit k data
  unfold Conn.deliver
  dsimp only
  split_ifs
  · exact refl k
  · have ha := other (k.deposit data).2 (rapportAdvanceSeq (k.deposit data).2 data.length).rapport
      k.scheduler
    exact ((hd.trans ha).trans (resetWaystation _)).trans (drainRounds _ _)
  · exact hd

theorem hold (k : Conn) (seq : Word) (data : List Byte) :
    Tends k (waystationHold k seq data).2 := by
  unfold waystationHold
  dsimp only
  split_ifs
  · exact refl k
  · exact resetWaystation k
  · split
    · exact resetWaystation k
    · exact (resetWaystation k).trans (held _ _)

theorem rapportOnRst (k : Conn) : Tends k (rapportOnRst k) := by
  unfold Aevros.rapportOnRst
  split_ifs
  · exact refl k
  · exact letGo k

section

variable (now : Word)

section

variable (k : Conn)

theorem rapportOnAck (ackNum : Word) : Tends k (rapportOnAck now k ackNum) := by
  unfold Aevros.rapportOnAck
  split
  all_goals try split_ifs
  all_goals first | exact refl k | exact letGo k | exact other k _ k.scheduler

theorem rapportOnFin : Tends k (rapportOnFin now k) := by
  unfold Aevros.rapportOnFin
  split
  all_goals first | exact refl k | exact other k _ k.scheduler

section

variable (g : Segment)

theorem outOfOrder : Tends k (k.outOfOrder now g).2 := by
  have he : Tends k (k.earlyAck now g).2 := by
    unfold Conn.earlyAck
    split_ifs
    · exact other k k.rapport _
    · exact refl k
  unfold Conn.outOfOrder
  split_ifs
  · exact he
  · exact he.trans (hold _ _ _)
  · exact he

theorem inOrder : Tends k (k.inOrder now g).2 := by
  have ht : Tends k (k.takeAck now g).2 := by
    unfold Conn.takeAck
    split_ifs
    · exact (rapportOnAck now k g.ack).trans (other _ _ _)
    · exact refl k
  have hd := ht.trans (deliver _ g.data)
  unfold Conn.inOrder
  split_ifs
  · exact hd.trans (rapportOnFin now _)
  · exact hd

theorem receive : Tends k (conversationReceive now k g).2 := by
  have hw : Tends k (rapportSetPeerWindow k g.window) :=
    other k _ k.scheduler
  unfold conversationReceive
  dsimp only
  split_ifs
  · exact hw.trans (outOfOrder now _ g)
  · exact hw.trans (rapportOnRst _)
  · exact hw.trans (inOrder now _ g)

theorem answer : Tends k (conversationAnswer k g) := by
  unfold conversationAnswer rapportOnSynAck
  split_ifs
  · exact rapportOnRst k
  · exact refl k
  · exact refl k
  · exact other k _ k.scheduler
  · exact refl k

end

theorem setScheduler (p : PacketsState) : Tends k (k.setScheduler p) :=
  other k k.rapport p

theorem receiveWindow : Tends k (waystationReceiveWindow k).2 :=
  (resetWaystation k).trans (resetInbox _)

end

theorem dispatchTracked (o : Office) (k : Conn) (flags : Byte) (seq ack : Word)
    (payload : List Byte) (seqLen : ℕ) (me : Identity) :
    Tends k (dispatchTracked o k flags seq ack payload seqLen me).2.2 := by
  obtain ⟨p, h | h, -⟩ := dispatchTracked_cases o k flags seq ack payload seqLen me
  · rw [h]
    exact setScheduler k p
  · rw [h]
    exact (receiveWindow k).trans (setScheduler _ p)

theorem send (o : Office) (k : Conn) (data : List Byte) (me : Identity) :
    Tends k (switchboardSend o k data me).2.2 := by
  apply (switchboardSend_outcome o k data me).row (refl k) (receiveWindow k)
  exact fun _ _ => (receiveWindow k).trans (other _ _ _)

theorem initiateClose (k : Conn) (finSeq : Word) : Tends k (rapportInitiateClose k finSeq) := by
  unfold rapportInitiateClose
  dsimp only
  split <;> exact other k _ k.scheduler

theorem close (o : Office) (k : Conn) (me : Identity) : Tends k (switchboardClose o k me).2.2 := by
  apply (switchboardClose_outcome o k me).row (refl k) (receiveWindow k)
  exact fun _ _ => ((receiveWindow k).trans (other _ _ _)).trans (initiateClose _ _)

theorem timer (k : Conn) : Tends k (schedulerTimer now k).2 := by
  unfold schedulerTimer
  dsimp only
  split
  · exact refl k
  · split
    · exact setScheduler k _
    · split_ifs
      · exact refl k
      · exact (setScheduler k _).trans (rapportOnRst _)
      · exact setScheduler k _

end

theorem step (e : ConnEvent) (he : e.isClaim = false) (ha : e ≠ .accept) (k : Conn) :
    Tends k (k.step e) := by
  cases e with
  | syn | cookie | connect | listen => simp [ConnEvent.isClaim] at he
  | answer g => exact answer k g
  | segment now g => exact receive now k g
  | accept => exact absurd rfl ha
  | send o data me => exact send o k data me
  | close o me => exact close o k me
  | recv maxLen =>
    simp only [Conn.step, switchboardRecv]
    split_ifs
    · exact refl k
    · exact read k maxLen
  | expire => exact (other k _ k.scheduler).trans (release _)
  | timer now => exact timer now k

end Tends

theorem tends_of_claim {e : ConnEvent} (he : e.isClaim = true) (k : Conn) :
    ∃ u, Tends (k.claim u) (k.step e) := by
  cases e with
  | syn u peerIsn ourIsn o me =>
    refine ⟨u, ?_⟩
    exact (Tends.other (k.claim u) _ k.scheduler).trans
      (Tends.dispatchTracked o (rapportOnSyn (k.claim u) peerIsn ourIsn) _ _ _ _ _ me)
  | cookie u now g =>
    refine ⟨u, ?_⟩
    exact ((Tends.other (k.claim u) _ k.scheduler).trans
      (Tends.rapportOnAck now (rapportOnSyn (k.claim u) (g.seq - 1) (g.ack - 1)) g.ack)).trans
      (Tends.receive now _ g)
  | connect u ourIsn o me =>
    refine ⟨u, ?_⟩
    exact (Tends.other (k.claim u) _ k.scheduler).trans
      (Tends.dispatchTracked o (rapportInitiateConnect (k.claim u) ourIsn) _ _ _ _ _ me)
  | listen port protocol => exact ⟨_, .refl _⟩
  | _ => simp [ConnEvent.isClaim] at he

structure Tidy (k : Conn) (n : ℕ) : Prop where
  generation : k.box.generation = BitVec.ofNat 32 n
  inbox : ∃ i ≤ n, k.inbox.seenGeneration = BitVec.ofNat 32 i
  waystation : ∃ i ≤ n, k.waystation.seenGeneration = BitVec.ofNat 32 i
  synced : Synced k.box k.inbox
  accepted : ∃ i ≤ n, k.acceptedGeneration = BitVec.ofNat 32 i

theorem Tends.tidy (h : Tends k k') (ht : Tidy k n) : Tidy k' n where
  generation := h.generation.trans ht.generation
  inbox := by
    rcases h.inbox with hi | hi
    · rw [hi]; exact ht.inbox
    · exact ⟨n, le_rfl, hi.trans ht.generation⟩
  waystation := by
    rcases h.waystation with hw | hw
    · rw [hw]; exact ht.waystation
    · exact ⟨n, le_rfl, hw.trans ht.generation⟩
  synced := h.synced ht.synced
  accepted := by rw [h.accepted]; exact ht.accepted

/-- Ring and holding area are yet to meet the generation, and the slot was not handed out. -/
structure Conn.Unseen (k : Conn) : Prop where
  inbox : k.inbox.seenGeneration ≠ k.box.generation
  waystation : k.waystation.seenGeneration ≠ k.box.generation
  accepted : k.acceptedGeneration ≠ k.box.generation

theorem ofNat_ne_of_lt {i : ℕ} (h : i ≤ n) (hn : n + 1 < 2 ^ 32) :
    BitVec.ofNat 32 i ≠ BitVec.ofNat 32 n + 1 := by
  intro he
  have hw := congrArg BitVec.toNat he
  have h₁ : (1 : Word).toNat = 1 := rfl
  rw [BitVec.toNat_add, BitVec.toNat_ofNat, BitVec.toNat_ofNat] at hw
  omega

theorem Tidy.unseen (ht : Tidy k n) (hn : n + 1 < 2 ^ 32) (u : Tuple) : (k.claim u).Unseen := by
  have hg : (k.claim u).box.generation = BitVec.ofNat 32 n + 1 := by
    rw [← ht.generation]
    rfl
  obtain ⟨i, hi, hin⟩ := ht.inbox
  obtain ⟨j, hj, hway⟩ := ht.waystation
  obtain ⟨l, hl, hacc⟩ := ht.accepted
  refine ⟨?_, ?_, ?_⟩
  · rw [hg]
    exact hin ▸ ofNat_ne_of_lt hi hn
  · rw [hg]
    exact hway ▸ ofNat_ne_of_lt hj hn
  · rw [hg]
    exact hacc ▸ ofNat_ne_of_lt hl hn

theorem Tidy.claim (ht : Tidy k n) (hn : n + 1 < 2 ^ 32) (u : Tuple) :
    Tidy (k.claim u) (n + 1) := by
  obtain ⟨i, hi, hin⟩ := ht.inbox
  obtain ⟨j, hj, hway⟩ := ht.waystation
  obtain ⟨l, hl, hacc⟩ := ht.accepted
  refine ⟨?_, ⟨i, by omega, hin⟩, ⟨j, by omega, hway⟩, ?_, ⟨l, by omega, hacc⟩⟩
  · rw [BitVec.ofNat_add, ← ht.generation]
    rfl
  · exact (synced_of_stale (ht.unseen hn u).inbox rfl).1

theorem Tidy.step (ht : Tidy k n) (e : ConnEvent) (hn : n + (if e.isClaim then 1 else 0) < 2 ^ 32) :
    Tidy (k.step e) (n + if e.isClaim then 1 else 0) := by
  split_ifs at hn ⊢ with he
  · obtain ⟨u, hu⟩ := tends_of_claim he k
    exact hu.tidy (ht.claim hn u)
  · by_cases ha : e = .accept
    · subst ha
      exact ⟨ht.generation, ht.inbox, ht.waystation, ht.synced, n, le_rfl, ht.generation⟩
    · exact (Tends.step e (by simpa using he) ha k).tidy ht

theorem Tidy.run (ht : Tidy k n) (es : List ConnEvent)
    (hn : n + es.countP ConnEvent.isClaim < 2 ^ 32) :
    Tidy (Runs.run Conn.step k es) (n + es.countP ConnEvent.isClaim) := by
  induction es generalizing k n with
  | nil => exact ht
  | cons e es ih =>
    rw [List.countP_cons, Nat.add_comm (es.countP _), ← Nat.add_assoc] at hn ⊢
    exact ih (ht.step e (by omega)) hn

theorem Tidy.boot : Tidy {} 0 :=
  ⟨rfl, ⟨0, le_rfl, rfl⟩, ⟨0, le_rfl, rfl⟩, .of_seen rfl (by norm_num) rfl rfl (by norm_num),
    0, le_rfl, rfl⟩

theorem Net.Extends.tidy {P : ConnEvent → Prop} {o : Office} {s : Net}
    (h : (Net.boot o).Extends P s) (c : Slot) (hn : s.claims c < 2 ^ 32) :
    Tidy (s.conns c) (s.claims c) := by
  have ht := Tidy.boot.run (s.history c) (by rw [Nat.zero_add]; exact hn)
  rwa [Nat.zero_add, ← (h.history_run c).1] at ht

def Conn.HandedOut (k : Conn) : Prop := k.acceptedGeneration = k.box.generation

end Aevros
