import Aevros.Guarantees.Generations
import Aevros.Guarantees.Ledger
import Aevros.Library.Slices

/-! # Stream integrity

Whatever slices of its stream the peer sends, the bytes read from the inbox are an initial part of
it, and the expected number counts the bytes deposited.
-/

namespace Aevros

open Runs WayStation Slices Function List

variable {k : Conn} {g : Segment} {isn : Word} {S out : List Byte} {n : ℕ} {data : List Byte}

def seqOf (isn : Word) (n : ℕ) : Word := isn + 1 + BitVec.ofNat 32 n

theorem seqOf_inj {m : ℕ} (hm : m < 2 ^ 32) (hn : n < 2 ^ 32) (h : seqOf isn m = seqOf isn n) :
    m = n := by
  have hw := congrArg BitVec.toNat ((BitVec.add_right_inj _).mp h)
  rwa [BitVec.toNat_ofNat, BitVec.toNat_ofNat, Nat.mod_eq_of_lt hm, Nat.mod_eq_of_lt hn] at hw

theorem seqOf_add (isn : Word) (m n : ℕ) : seqOf isn (m + n) = seqOf isn m + BitVec.ofNat 32 n := by
  rw [seqOf, seqOf, BitVec.ofNat_add, BitVec.add_assoc (isn + 1)]

def Placed (S : List Byte) (isn seq : Word) (data : List Byte) : Prop :=
  ∃ n, seq = seqOf isn n ∧ Slice S n data

/-- The receiving side of a slot is at byte `n` of the stream, after `out` was read. -/
structure Receiving (S : List Byte) (isn : Word) (out : List Byte) (n : ℕ) (k : Conn) : Prop where
  inUse : k.box.inUse = true
  status : k.rapport.status = .synReceived ∨ k.rapport.status = .established
  expected : k.rapport.expectedSeq = seqOf isn n
  synced : Synced k.box k.inbox
  progress : Progress S out (unread k.box k.inbox) n
  held : ∀ i, ((k.waystation.resetIfStale k.box.generation).slots i).inUse = true →
    Placed S isn ((k.waystation.resetIfStale k.box.generation).slots i).seq
      ((k.waystation.resetIfStale k.box.generation).slots i).data

namespace Receiving

theorem of_placed (hS : S.length < 2 ^ 31) (h : Receiving S isn out n k)
    (hp : Placed S isn k.rapport.expectedSeq data) : Slice S n data := by
  obtain ⟨m, hseq, hs⟩ := hp
  have hm := hs.1
  have hn := h.progress.le
  rw [h.expected] at hseq
  rwa [seqOf_inj (by omega) (by omega) hseq]

section

variable (h : Receiving S isn out n k)

include h

theorem deposit (hs : Slice S n data) (hf : k.Fits data) : Receiving S isn out (n + data.length)
      (rapportAdvanceSeq (k.deposit data).2 data.length) := by
  have ha := (Conn.deposit_fst data).mpr hf
  obtain ⟨hsync, hun⟩ := h.synced.deposit ha
  have hbox := inboxDeposit_accepted ha
  refine ⟨?_, h.status, ?_, hsync, ?_, ?_⟩
  · change (inboxDeposit k.box k.inbox data).2.1.inUse = true
    rw [hbox]
    exact h.inUse
  · rw [seqOf_add, ← h.expected]
    rfl
  · change Progress S out (unread (inboxDeposit k.box k.inbox data).2.1
      (inboxDeposit k.box k.inbox data).2.2) _
    rw [hun]
    exact h.progress.deliver hs
  · have hgen : (rapportAdvanceSeq (k.deposit data).2 data.length).box.generation =
        k.box.generation := by
      change (inboxDeposit k.box k.inbox data).2.1.generation = _
      rw [hbox]
    rw [hgen]
    exact h.held

theorem refused (hf : ¬ k.Fits data) : Receiving S isn out n (k.deposit data).2 := by
  rw [Conn.deposit_refused hf]
  refine ⟨h.inUse, h.status, h.expected, synced_resetIfStale.mpr h.synced, ?_, h.held⟩
  rw [unread_resetIfStale]
  exact h.progress

theorem dropHeld (hseen : k.waystation.seenGeneration = k.box.generation)
    (i : Fin waystationMaxPending) : Receiving S isn out n (k.dropHeld i) := by
  refine ⟨h.inUse, h.status, h.expected, h.synced, h.progress, fun j => ?_⟩
  have hheld := h.held j
  rw [resetIfStale_of_seen hseen] at hheld
  rw [resetIfStale_of_seen (by exact hseen)]
  simp only [Conn.dropHeld, update_apply]
  split_ifs with hj
  · simp
  · exact hheld

omit h in
theorem drainRounds (hS : S.length < 2 ^ 31) (r : ℕ) (h : Receiving S isn out n k)
    (hseen : k.waystation.seenGeneration = k.box.generation) :
    ∃ m, Receiving S isn out m (drainRounds r k) := by
  induction r generalizing k n with
  | zero => exact ⟨n, h⟩
  | succ r ih =>
    rw [Aevros.drainRounds]
    split
    · exact ⟨n, h⟩
    · rename_i i hi
      have hfound := Fin.eq_true_of_find?_eq_some hi
      simp only [Bool.and_eq_true, decide_eq_true_eq] at hfound
      have hheld := h.held i
      rw [resetIfStale_of_seen hseen] at hheld
      have hs := h.of_placed hS (hfound.2 ▸ hheld hfound.1)
      by_cases hf : k.Fits (k.waystation.slots i).data
      · have hdep := h.deposit hs hf
        simp only [(Conn.deposit_fst _).mpr hf]
        have hseen' : (rapportAdvanceSeq (k.deposit (k.waystation.slots i).data).2
            (k.waystation.slots i).data.length).waystation.seenGeneration =
            (rapportAdvanceSeq (k.deposit (k.waystation.slots i).data).2
              (k.waystation.slots i).data.length).box.generation := by
          rw [(Delivered.deposit hf).generation]
          exact hseen
        exact ih (hdep.dropHeld hseen' i) hseen'
      · have hfalse : (k.deposit (k.waystation.slots i).data).1 = false := by
          rw [Conn.deposit_refused hf]
        simp only [hfalse]
        exact ⟨n, h.refused hf⟩

theorem resetWaystation : Receiving S isn out n k.resetWaystation := by
  refine ⟨h.inUse, h.status, h.expected, h.synced, h.progress, ?_⟩
  dsimp only [Conn.resetWaystation]
  rw [resetIfStale_idem]
  exact h.held

omit h in
theorem deliver (hS : S.length < 2 ^ 31) (h : Receiving S isn out n k) (hs : Slice S n data) :
    ∃ m, Receiving S isn out m (k.deliver data) := by
  unfold Conn.deliver
  split_ifs with hd
  · exact ⟨n, h⟩
  · by_cases hf : k.Fits data
    · simp only [(Conn.deposit_fst data).mpr hf]
      exact (h.deposit hs hf).resetWaystation.drainRounds hS _ (by simp [Conn.resetWaystation])
    · simp only [Conn.deposit_refused hf]
      refine ⟨n, ?_⟩
      have := h.refused hf
      rwa [Conn.deposit_refused hf] at this

theorem hold {seq : Word} (hp : Placed S isn seq data) :
    Receiving S isn out n (waystationHold k seq data).2 := by
  unfold waystationHold
  split_ifs
  · exact h
  · dsimp only
    split
    · exact h.resetWaystation
    · split
      · exact h.resetWaystation
      · refine ⟨h.inUse, h.status, h.expected, h.synced, h.progress, fun j => ?_⟩
        have hheld := h.resetWaystation.held j
        rw [resetIfStale_of_seen (by simp [Conn.resetWaystation])] at hheld
        rw [resetIfStale_of_seen (by simp [Conn.resetWaystation])]
        simp only [update_apply]
        split_ifs with hj
        · exact fun _ => hp
        · exact hheld

theorem setScheduler (p : PacketsState) : Receiving S isn out n (k.setScheduler p) :=
  ⟨h.inUse, h.status, h.expected, h.synced, h.progress, h.held⟩

theorem rapportOnAck (now ackNum : Word) : Receiving S isn out n (rapportOnAck now k ackNum) := by
  rcases h.status with hs | hs
  · simp only [Aevros.rapportOnAck, hs]
    split_ifs
    · exact h
    · exact ⟨h.inUse, .inr rfl, h.expected, h.synced, h.progress, h.held⟩
  · simp only [Aevros.rapportOnAck, hs]
    exact h

theorem takeAck (now : Word) (g : Segment) : Receiving S isn out n (k.takeAck now g).2 := by
  unfold Conn.takeAck
  split_ifs
  · exact (h.rapportOnAck now g.ack).setScheduler _
  · exact h

theorem outOfOrder (now : Word) (hp : Placed S isn g.seq g.data) :
    Receiving S isn out n (k.outOfOrder now g).2 := by
  have he : Receiving S isn out n (k.earlyAck now g).2 := by
    unfold Conn.earlyAck
    split_ifs
    · exact h.setScheduler _
    · exact h
  unfold Conn.outOfOrder
  split_ifs
  · exact he
  · exact he.hold hp
  · exact he

omit h in
theorem receive (hS : S.length < 2 ^ 31) (h : Receiving S isn out n k) (now : Word)
    (hp : Placed S isn g.seq g.data) (hrst : g.rst = false) (hfin : g.fin = false) :
    ∃ m, Receiving S isn out m (conversationReceive now k g).2 := by
  have hw : Receiving S isn out n (rapportSetPeerWindow k g.window) :=
    ⟨h.inUse, h.status, h.expected, h.synced, h.progress, h.held⟩
  unfold conversationReceive
  dsimp only
  split_ifs with hseq hr
  · exact ⟨n, hw.outOfOrder now hp⟩
  · simp [hrst] at hr
  · have hs : Slice S n g.data := hw.of_placed hS (not_not.mp hseq ▸ hp)
    unfold Conn.inOrder
    simp only [hfin]
    exact (hw.takeAck now g).deliver hS hs

theorem read (maxLen : ℕ) : Receiving S isn (out ++ (k.read maxLen).1) n (k.read maxLen).2 := by
  obtain ⟨hsync, hout, hun⟩ := h.synced.read maxLen
  obtain ⟨m, -, hbox⟩ := k.read_box maxLen
  refine ⟨by rw [hbox]; exact h.inUse, h.status, h.expected, hsync, ?_, ?_⟩
  · change Progress S (out ++ (inboxRead k.box k.inbox maxLen).1)
      (unread (inboxRead k.box k.inbox maxLen).2.1 (inboxRead k.box k.inbox maxLen).2.2) n
    rw [hout, hun]
    exact h.progress.read maxLen
  · rw [hbox]
    exact h.held

end

end Receiving

inductive StreamEvent
  | arrival (p : Packet) (src dst : Ip4)
  | read (maxLen : ℕ)

def streamStep (c : Slot) (r : Net × List Byte) : StreamEvent → Net × List Byte
  | .arrival p src dst => (conversationHandle r.1 p src dst, r.2)
  | .read maxLen =>
    ({ r.1 with conns := update r.1.conns c ((r.1.conns c).read maxLen).2 },
      r.2 ++ ((r.1.conns c).read maxLen).1)

/-- A slice of the stream at its sequence number, without SYN, FIN and RST. -/
def StreamEvent.Carries (u : Tuple) (isn : Word) (S : List Byte) : StreamEvent → Prop
  | .arrival p src _ => (decode p.bytes).tuple src = u →
      (decode p.bytes).syn = false ∧ (decode p.bytes).fin = false ∧ (decode p.bytes).rst = false ∧
        Placed S isn (decode p.bytes).seq (decode p.bytes).data
  | .read _ => True

/-- A slot in use in which nothing was deposited or held yet. -/
structure Conn.Blank (k : Conn) : Prop where
  inUse : k.box.inUse = true
  buffered : k.box.bufferedBytes = 0
  synced : Synced k.box k.inbox
  held : ∀ i, ((k.waystation.resetIfStale k.box.generation).slots i).inUse = false

/-- A connection at the beginning of the peer's stream. -/
structure Conn.Fresh (k : Conn) (isn : Word) : Prop extends Conn.Blank k where
  status : k.rapport.status = .synReceived ∨ k.rapport.status = .established
  expected : k.rapport.expectedSeq = isn + 1

theorem Conn.Fresh.receiving (h : k.Fresh isn) (S : List Byte) : Receiving S isn [] 0 k where
  inUse := h.inUse
  status := h.status
  expected := by rw [h.expected, seqOf]; simp
  synced := h.synced
  progress := by
    have hu : unread k.box k.inbox = [] :=
      List.eq_nil_of_length_eq_zero (h.synced.length_unread.trans h.buffered)
    rw [hu]
    exact .start S
  held i hi := by simp [h.held i] at hi

theorem Received.tuple {k' : Conn} (h : Received k g k') (hu : k'.box.inUse = true) :
    k'.box.tuple = k.box.tuple := by
  cases h with
  | outOfOrder _ hbox => rw [hbox]
  | dropped hf => simp [hf.inUse] at hu
  | ignored _ hk => rw [hk]; rfl
  | inOrder _ _ _ hbox => rw [hbox]; rfl

def Streaming (S : List Byte) (isn : Word) (u : Tuple) (c : Slot) (r : Net × List Byte) : Prop :=
  (r.1.conns c).box.tuple = u ∧ ∃ n, Receiving S isn r.2 n (r.1.conns c)

theorem Streaming.step (hS : S.length < 2 ^ 31) {u : Tuple} {c : Slot} {r : Net × List Byte}
    (h : Streaming S isn u c r) (e : StreamEvent) (he : e.Carries u isn S) :
    Streaming S isn u c (streamStep c r e) := by
  obtain ⟨htuple, n, hn⟩ := h
  cases e with
  | arrival p src dst =>
    have hs : (r.1.conns c).rapport.status ≠ .synSent := by
      rcases hn.status with hs | hs <;> simp [hs]
    unfold Streaming streamStep
    rcases Net.conversationHandle_conns hn.inUse p src dst with hc | ⟨hu, hc⟩
    · rw [hc]
      exact ⟨htuple, n, hn⟩
    · rw [if_neg hs] at hc
      obtain ⟨-, hfin, hrst, hp⟩ := he (hu.trans htuple)
      obtain ⟨m, hm⟩ := hn.receive hS r.1.office.ticks hp hrst hfin
      rw [hc]
      exact ⟨((received_receive _ _ _).tuple hm.inUse).trans htuple, m, hm⟩
  | read maxLen =>
    have hr := hn.read maxLen
    obtain ⟨m, -, hbox⟩ := (r.1.conns c).read_box maxLen
    unfold Streaming streamStep
    dsimp only
    rw [update_self]
    exact ⟨by rw [hbox]; exact htuple, n, hr⟩

theorem Conn.Fresh.streaming {s : Net} {c : Slot} (hc : (s.conns c).Fresh isn)
    (hS : S.length < 2 ^ 31) {es : List StreamEvent}
    (hes : ∀ e ∈ es, e.Carries (s.conns c).box.tuple isn S) :
    Streaming S isn (s.conns c).box.tuple c (run (streamStep c) (s, []) es) := by
  have hstart : Streaming S isn (s.conns c).box.tuple c (s, []) := ⟨rfl, 0, hc.receiving S⟩
  exact Along.run_invariant (fun r e h he => h.step hS e he) hstart (along_of_forall hes)

theorem Conn.Unseen.blank (h : k.Unseen) (hu : k.box.inUse = true)
    (hb : k.box.bufferedBytes = 0) : k.Blank where
  inUse := hu
  buffered := hb
  synced := (synced_of_stale h.inbox hb).1
  held i := by simp [WayStation.resetIfStale, h.waystation]

theorem Conn.Blank.dispatchTracked (h : k.Blank) (o : Office) (flags : Byte) (seq ack : Word)
    (payload : List Byte) (seqLen : ℕ) (me : Identity) :
    (dispatchTracked o k flags seq ack payload seqLen me).2.2.Blank := by
  have hw : (waystationReceiveWindow k).2.Blank := by
    refine ⟨h.inUse, h.buffered, synced_resetIfStale.mpr h.synced, ?_⟩
    intro i
    exact (congrArg (fun w : WayStation => (w.slots i).inUse)
      (resetIfStale_idem _ _)).trans (h.held i)
  obtain ⟨p, hk | hk, -⟩ := dispatchTracked_cases o k flags seq ack payload seqLen me
  · rw [hk]; exact ⟨h.inUse, h.buffered, h.synced, h.held⟩
  · rw [hk]; exact ⟨hw.inUse, hw.buffered, hw.synced, hw.held⟩

theorem unseen_of_history {h : List ConnEvent} {e : ConnEvent} (he : e.isClaim = true)
    (hn : (h ++ [e]).countP ConnEvent.isClaim < 2 ^ 32) (u : Tuple) :
    ((run Conn.step {} h).claim u).Unseen := by
  have hcount : (h ++ [e]).countP ConnEvent.isClaim = h.countP ConnEvent.isClaim + 1 := by
    rw [countP_append, countP_singleton, if_pos he]
  have ht : Tidy (run Conn.step {} h) (0 + h.countP ConnEvent.isClaim) :=
    Tidy.boot.run h (by omega)
  exact ht.unseen (by omega) u

/-- The initial number of the peer whose SYN claimed the slot. -/
def ConnEvent.synFrom : ConnEvent → Option Word
  | .syn _ peerIsn _ _ _ => some peerIsn
  | _ => none

/-- Right after its SYN a connection is at the beginning of the peer's stream. -/
theorem fresh_of_syn (o : Office) (es : List Event) (c : Slot) {h : List ConnEvent} {e : ConnEvent}
    {isn : Word} : let s := run Net.step (Net.boot o) es
    s.claims c < 2 ^ 32 → s.history c = h ++ [e] → e.synFrom = some isn →
      (s.conns c).Fresh isn := by
  intro s hn hh he
  rw [Net.claims, hh] at hn
  rw [(Net.history_run o es c).1, hh, run_append]
  cases e with
  | syn u peerIsn ourIsn o' me =>
    cases he
    have hun := unseen_of_history rfl hn u
    have hk : (rapportOnSyn ((run Conn.step {} h).claim u) isn ourIsn).Blank :=
      Conn.Unseen.blank ⟨hun.inbox, hun.waystation, hun.accepted⟩ rfl rfl
    have hr := dispatchTracked_rapport o' (rapportOnSyn ((run Conn.step {} h).claim u) isn
      ourIsn) (flagSyn ||| flagAck) ourIsn (isn + 1) [] 1 me
    exact ⟨hk.dispatchTracked o' _ _ _ _ _ me, .inl (congrArg Rapport.status hr),
      congrArg Rapport.expectedSeq hr⟩
  | _ => cases he

theorem fresh_of_syn_sample :
    ((run Net.step (Net.boot sampleOffice) (sampleHandshake.take 3)).conns 1).Fresh 7 := by
  have hsyn : ((run Net.step (Net.boot sampleOffice) (sampleHandshake.take 3)).history 1).map
      ConnEvent.synFrom = [some 7] := by
    decide +kernel
  obtain ⟨e, hh, he⟩ := map_eq_singleton_iff.mp hsyn
  exact fresh_of_syn sampleOffice _ 1 (by decide +kernel) (h := []) hh he

/-- The bytes read are an initial part of the stream, and the expected number is theirs. -/
theorem bytes_read_are_a_prefix (s : Net) (c : Slot) (isn : Word) (S : List Byte)
    (hS : S.length < 2 ^ 31) (hc : (s.conns c).Fresh isn) (es : List StreamEvent)
    (hes : ∀ e ∈ es, e.Carries (s.conns c).box.tuple isn S) :
    let r := run (streamStep c) (s, []) es
    r.2 <+: S ∧ (r.1.conns c).rapport.expectedSeq =
      isn + 1 + BitVec.ofNat 32 (r.2.length + (r.1.conns c).box.bufferedBytes) := by
  obtain ⟨-, n, hn⟩ := hc.streaming hS hes
  refine ⟨hn.progress.isPrefix, ?_⟩
  rw [← hn.synced.length_unread, hn.progress.length_add, hn.expected, seqOf]

def slicePacket (seq : Word) (data : List Byte) (h : data.length < 65516 := by simp) : Packet :=
  Segment.packet ⟨1001, 80, seq, sampleIsn + 1, 0x10, 4096, data⟩ samplePeer sampleIp h

def sampleSlices : List StreamEvent :=
  [.arrival (slicePacket 10 [3, 4]) samplePeer sampleIp,
    .arrival (slicePacket 8 [1, 2, 3]) samplePeer sampleIp, .read 2,
    .arrival (slicePacket 11 [4, 5]) samplePeer sampleIp, .read 9]

theorem bytes_read_are_a_prefix_sample :
    let s := run Net.step (Net.boot sampleOffice) (sampleHandshake.take 3)
    let r := run (streamStep 1) (s, []) sampleSlices
    (s.conns 1).Fresh 7 ∧ r.2 <+: [1, 2, 3, 4, 5] ∧ (r.1.conns 1).rapport.expectedSeq =
      7 + 1 + BitVec.ofNat 32 (r.2.length + (r.1.conns 1).box.bufferedBytes) := by
  intro s r
  have hf : (s.conns 1).Fresh 7 :=
    ⟨⟨by decide +kernel, by decide +kernel,
      ⟨by decide +kernel, by decide +kernel, by decide +kernel, by decide +kernel⟩,
      by decide +kernel⟩, .inl (by decide +kernel), by decide +kernel⟩
  refine ⟨hf, bytes_read_are_a_prefix s 1 7 [1, 2, 3, 4, 5] (by simp) hf sampleSlices ?_⟩
  have hp : ∀ n data h, Slice [1, 2, 3, 4, 5] n data →
      (StreamEvent.arrival (slicePacket (seqOf 7 n) data h) samplePeer sampleIp).Carries
        (s.conns 1).box.tuple 7 [1, 2, 3, 4, 5] := by
    intro n data h hs _
    have hd : decode (slicePacket (seqOf 7 n) data h).bytes =
        ⟨1001, 80, seqOf 7 n, sampleIsn + 1, 0x10, 4096, data⟩ := decode_encode _ _ _
    rw [hd]
    have hflags : hasFlag 0x10 flagSyn = false ∧ hasFlag 0x10 flagFin = false ∧
        hasFlag 0x10 flagRst = false := by decide
    exact ⟨hflags.1, hflags.2.1, hflags.2.2, n, rfl, hs⟩
  intro e he
  simp only [sampleSlices, mem_cons, not_mem_nil, or_false] at he
  rcases he with rfl | rfl | rfl | rfl | rfl
  · exact hp 2 [3, 4] (by simp) ⟨by simp, by decide⟩
  · exact hp 0 [1, 2, 3] (by simp) ⟨by simp, by decide⟩
  · trivial
  · exact hp 3 [4, 5] (by simp) ⟨by simp, by decide⟩
  · trivial

end Aevros
