import Aevros.Tcp.Conversation

/-! # What the operations change

Delivery adds as many bytes to LockBox's account as to the expected sequence number. Dispatching
changes the window only, and an acknowledgement only frees segments.
-/

namespace Aevros

variable {k k' k'' : Conn} {m n : ℕ}

structure Delivered (k k' : Conn) (n : ℕ) : Prop where
  box : k'.box = { k.box with bufferedBytes := k.box.bufferedBytes + n }
  rapport : k'.rapport = { k.rapport with expectedSeq := k.rapport.expectedSeq + BitVec.ofNat 32 n }
  scheduler : k'.scheduler = k.scheduler
  accepted : k'.acceptedGeneration = k.acceptedGeneration
  room : n = 0 ∨ k.box.bufferedBytes + n ≤ lockboxMaxBuffered

namespace Delivered

theorem refl (k : Conn) : Delivered k k 0 := ⟨rfl, by simp, rfl, rfl, .inl rfl⟩

theorem trans (h : Delivered k k' m) (h' : Delivered k' k'' n) : Delivered k k'' (m + n) where
  box := by rw [h'.box, h.box, Nat.add_assoc]
  rapport := by rw [h'.rapport, h.rapport, BitVec.ofNat_add, BitVec.add_assoc]
  scheduler := h'.scheduler.trans h.scheduler
  accepted := h'.accepted.trans h.accepted
  room := by
    rcases h'.room with rfl | hr
    · exact h.room
    · rw [h.box] at hr
      exact .inr (by simpa [Nat.add_assoc] using hr)

section

variable (h : Delivered k k' n)

include h

theorem status : k'.rapport.status = k.rapport.status := by
  rw [h.rapport]

theorem expectedSeq : k'.rapport.expectedSeq = k.rapport.expectedSeq + BitVec.ofNat 32 n := by
  rw [h.rapport]

theorem buffered : k'.box.bufferedBytes = k.box.bufferedBytes + n := by
  rw [h.box]

theorem inUse : k'.box.inUse = k.box.inUse := by rw [h.box]

theorem generation : k'.box.generation = k.box.generation := by
  rw [h.box]

theorem tuple : k'.box.tuple = k.box.tuple := by
  rw [h.box]; rfl

end

end Delivered

def Conn.Fits (k : Conn) (payload : List Byte) : Prop :=
  k.box.inUse = true ∧ k.box.bufferedBytes + payload.length ≤ lockboxMaxBuffered

instance (k : Conn) (payload : List Byte) : Decidable (k.Fits payload) :=
  inferInstanceAs (Decidable (_ ∧ _))

theorem Conn.deposit_fst (payload : List Byte) : (k.deposit payload).1 = true ↔ k.Fits payload :=
  inboxDeposit_true_iff payload

theorem Conn.deposit_refused {payload : List Byte} (h : ¬ k.Fits payload) :
    k.deposit payload = (false, { k with inbox := k.inbox.resetIfStale k.box.generation }) := by
  have hf : (inboxDeposit k.box k.inbox payload).1 = false := by
    rw [← Bool.not_eq_true]
    exact fun ht => h ((inboxDeposit_true_iff payload).mp ht)
  rw [Conn.deposit, inboxDeposit_refused hf]

theorem Conn.deposit_generation (k : Conn) (payload : List Byte) :
    (k.deposit payload).2.box.generation = k.box.generation := by
  by_cases hf : k.Fits payload
  · change (inboxDeposit k.box k.inbox payload).2.1.generation = _
    rw [inboxDeposit_accepted ((deposit_fst payload).mpr hf)]
  · rw [deposit_refused hf]

theorem Delivered.of_inbox (b : Inbox) (w : WayStation) :
    Delivered k { k with inbox := b, waystation := w } 0 :=
  ⟨rfl, by simp, rfl, rfl, .inl rfl⟩

theorem Delivered.deposit {payload : List Byte} (h : k.Fits payload) :
    Delivered k (rapportAdvanceSeq (k.deposit payload).2 payload.length) payload.length where
  box := inboxDeposit_accepted ((Conn.deposit_fst payload).mpr h)
  rapport := rfl
  scheduler := rfl
  accepted := rfl
  room := .inr h.2

theorem delivered_drainRounds (r : ℕ) (k : Conn) : ∃ n, Delivered k (drainRounds r k) n := by
  induction r generalizing k with
  | zero => exact ⟨0, .refl k⟩
  | succ r ih =>
    rw [drainRounds]
    split
    · exact ⟨0, .refl k⟩
    · rename_i i _
      by_cases hf : k.Fits (k.waystation.slots i).data
      · simp only [(Conn.deposit_fst _).mpr hf]
        obtain ⟨n, hn⟩ := ih ((rapportAdvanceSeq (k.deposit (k.waystation.slots i).data).2
          (k.waystation.slots i).data.length).dropHeld i)
        exact ⟨_, ((Delivered.deposit hf).trans (.of_inbox _ _)).trans hn⟩
      · simp only [Conn.deposit_refused hf]
        exact ⟨0, .of_inbox _ _⟩

theorem delivered_drain (k : Conn) : ∃ n, Delivered k (waystationDrain k) n := by
  obtain ⟨n, hn⟩ := delivered_drainRounds (waystationMaxPending + 1) k.resetWaystation
  exact ⟨_, (Delivered.of_inbox k.inbox _).trans hn⟩

theorem delivered_deliver (k : Conn) (data : List Byte) : ∃ n, Delivered k (k.deliver data) n ∧
      (if data ≠ [] ∧ k.Fits data then data.length ≤ n else n = 0) := by
  unfold Conn.deliver
  by_cases hd : data = []
  · simp only [hd]
    exact ⟨0, .refl k, rfl⟩
  · rw [if_neg (by simpa using hd)]
    by_cases hf : k.Fits data
    · simp only [(Conn.deposit_fst data).mpr hf, ne_eq, hd, hf]
      obtain ⟨n, hn⟩ := delivered_drain (rapportAdvanceSeq (k.deposit data).2 data.length)
      exact ⟨_, (Delivered.deposit hf).trans hn, Nat.le_add_right _ _⟩
    · simp only [Conn.deposit_refused hf, hf, and_false]
      exact ⟨0, .of_inbox _ _, rfl⟩

theorem Conn.read_box (k : Conn) (maxLen : ℕ) :
    ∃ m ≤ k.box.bufferedBytes, (k.read maxLen).2.box = { k.box with bufferedBytes := m } := by
  unfold Conn.read inboxRead lockboxConsume
  dsimp only
  split_ifs
  all_goals exact ⟨_, by simp, rfl⟩

theorem waystationHold_snd (k : Conn) (seq : Word) (payload : List Byte) :
    ∃ w, (waystationHold k seq payload).2 = { k with waystation := w } := by
  unfold waystationHold
  split_ifs
  · exact ⟨k.waystation, rfl⟩
  · dsimp only
    split
    · exact ⟨_, rfl⟩
    · split <;> exact ⟨_, rfl⟩

theorem Conn.outOfOrder_snd (now : Word) (k : Conn) (g : Segment) : ∃ w, (k.outOfOrder now g).2 =
      { k with scheduler := (k.earlyAck now g).2.scheduler, waystation := w } := by
  have hearly : (k.earlyAck now g).2 = { k with scheduler := (k.earlyAck now g).2.scheduler } := by
    unfold earlyAck
    split_ifs <;> rfl
  unfold outOfOrder
  split_ifs
  · exact ⟨_, hearly⟩
  · obtain ⟨w, hw⟩ := waystationHold_snd (k.earlyAck now g).2 g.seq g.data
    exact ⟨w, hw.trans (congrArg (fun k : Conn => { k with waystation := w }) hearly)⟩
  · exact ⟨_, hearly⟩

def PacketsState.Shrinks (p q : PacketsState) : Prop :=
  ∀ i, (q.seg i).inUse = true → (p.seg i).inUse = true

theorem PacketsState.Shrinks.empty {p q : PacketsState} (h : p.Shrinks q) (hp : p.Empty) :
    q.Empty := by
  intro i
  rw [← Bool.not_eq_true]
  intro hq
  simpa [hp i] using h i hq

theorem schedulerCancel_empty (p : PacketsState) : (schedulerCancel p).Empty := fun _ => rfl

theorem PacketsState.free_shrinks (p : PacketsState) (acked : Word) : p.Shrinks (p.free acked) := by
  intro i
  simp only [PacketsState.free]
  split_ifs <;> simp

theorem schedulerAck_shrinks (now : Word) (p : PacketsState) (acked : Word) :
    p.Shrinks (schedulerAck now p acked).2 := by
  unfold schedulerAck
  split_ifs
  · exact fun _ => id
  · split <;> exact p.free_shrinks acked
  all_goals exact fun _ => id

variable (o : Office) (k : Conn) (flags : Byte) (seq ack : Word) (payload : List Byte)

theorem conversationDispatch_cases (me : Identity) :
    (conversationDispatch o k flags seq ack payload me).2.2 = k ∨
      (conversationDispatch o k flags seq ack payload me).2.2 = (waystationReceiveWindow k).2 := by
  unfold conversationDispatch
  split_ifs
  · exact .inl rfl
  · exact .inl rfl
  · exact .inl rfl
  · split
    · exact .inl rfl
    · dsimp only
      split_ifs <;> exact .inr rfl

variable (seqLen : ℕ) (me : Identity)

theorem dispatchTracked_cases :
    ∃ p, ((dispatchTracked o k flags seq ack payload seqLen me).2.2 = k.setScheduler p ∨
        (dispatchTracked o k flags seq ack payload seqLen me).2.2 =
          (waystationReceiveWindow k).2.setScheduler p) ∧
      ((dispatchTracked o k flags seq ack payload seqLen me).1 = none → p = k.scheduler) := by
  have h := conversationDispatch_cases o k flags seq ack payload me
  unfold dispatchTracked
  generalize conversationDispatch o k flags seq ack payload me = r at h ⊢
  obtain ⟨_ | sent, o', k'⟩ := r
  · exact ⟨k.scheduler, h, fun _ => rfl⟩
  · rcases h with rfl | rfl
    · exact ⟨_, .inl rfl, by simp⟩
    · exact ⟨_, .inr rfl, by simp⟩

theorem dispatchTracked_conn : ∃ b w p, (dispatchTracked o k flags seq ack payload seqLen me).2.2 =
        { k with inbox := b, waystation := w, scheduler := p } ∧
      ((dispatchTracked o k flags seq ack payload seqLen me).1 = none → p = k.scheduler) := by
  obtain ⟨p, h | h, hp⟩ := dispatchTracked_cases o k flags seq ack payload seqLen me
  · exact ⟨k.inbox, k.waystation, p, h, hp⟩
  · exact ⟨_, _, p, h, hp⟩

theorem dispatchTracked_rapport :
    (dispatchTracked o k flags seq ack payload seqLen me).2.2.rapport = k.rapport := by
  obtain ⟨b, w, p, h, -⟩ := dispatchTracked_conn o k flags seq ack payload seqLen me
  rw [h]

end Aevros
