import Aevros.Guarantees.Stream

/-! # Active opens

A connection opened from our side is established and read exactly if somebody else opened the Menu
for its port and had `switchboard_accept` hand it out.
-/

namespace Aevros

open Runs Net

variable {k : Conn} {e : ConnEvent} {u : Tuple} {s t : Net} {c : Slot} {P : ConnEvent → Prop}
  {src dst : Ip4}

theorem phase_eq_sent_iff : k.phase = .sent ↔ k.rapport.status = .synSent := by
  unfold Conn.phase
  cases k.rapport.status <;> simp [ConversationState.phase]

theorem Received.not_sent {k' : Conn} {g : Segment} (h : Received k g k') (hk : k.phase ≠ .sent) :
    k'.phase ≠ .sent := by
  cases h with
  | outOfOrder _ _ _ hphase => rwa [hphase]
  | dropped hd => simp [hd.phase]
  | ignored _ hk' hp =>
    have : k'.phase = k.phase := by rw [hk']; rfl
    rwa [this]
  | inOrder _ _ _ _ _ _ hphase =>
    rw [hphase, Conn.phaseAfterAck]
    split_ifs <;> simp_all

theorem schedulerTimer_waystation (now : Word) (k : Conn) :
    (schedulerTimer now k).2.waystation = k.waystation := by
  unfold schedulerTimer
  dsimp only
  split
  · rfl
  · split
    · rfl
    · split_ifs
      · rfl
      · unfold rapportOnRst
        split_ifs <;> rfl
      · rfl

theorem sent_step (hl : e.Legal k) (hc : e.isClaim = false)
    (hs : (k.step e).rapport.status = .synSent) :
    k.rapport.status = .synSent ∧ (k.step e).waystation = k.waystation ∧
      (k.step e).box.bufferedBytes ≤ k.box.bufferedBytes ∧ e ≠ .accept := by
  have hp : (k.step e).phase = .sent := phase_eq_sent_iff.mpr hs
  cases e with
  | syn | cookie | connect | listen => simp [ConnEvent.isClaim] at hc
  | answer g =>
    rcases conversationAnswer_spec hl.2 g with hf | ⟨-, -, -, ho⟩ | ⟨-, hk⟩
    · exact absurd (hf.phase.symm.trans hp) (by simp)
    · exact absurd (ho.symm.trans hp) (by simp)
    · have hrow : k.step (.answer g) = k := hk
      rw [hrow]
      exact ⟨hl.2, rfl, le_rfl, by simp⟩
  | segment now g =>
    exact absurd hp ((received_receive now k g).not_sent fun h => hl.2.1 (phase_eq_sent_iff.mp h))
  | accept =>
    have hst : k.rapport.status = .established := hl.2
    simp [Conn.step, hst] at hs
  | send o data me =>
    have hk : k.rapport.status = .synSent :=
      phase_eq_sent_iff.mp ((quiet_send o k data me).phase ▸ hp)
    have hrow : k.step (.send o data me) = k := by
      have hn : ¬ k.Sendable data := fun h => by have := h.established; simp [hk] at this
      rw [Conn.step, switchboardSend_of_not_sendable hn]
    rw [hrow]
    exact ⟨hk, rfl, le_rfl, by simp⟩
  | close o me =>
    have hk : k.rapport.status = .synSent :=
      phase_eq_sent_iff.mp ((quiet_close o k me).phase ▸ hp)
    have hrow : k.step (.close o me) = k := by
      have hn : ¬ k.Closable := fun h => by rcases h.status with h | h <;> simp [hk] at h
      rw [Conn.step, switchboardClose_of_not_closable hn]
    rw [hrow]
    exact ⟨hk, rfl, le_rfl, by simp⟩
  | recv maxLen =>
    have hq := quiet_recv k maxLen
    refine ⟨phase_eq_sent_iff.mp (hq.phase ▸ hp), ?_, hq.buffered, by simp⟩
    simp only [Conn.step, switchboardRecv]
    split_ifs <;> rfl
  | expire => simp [Conn.step, rapportExpire, Conn.setStatus, Conn.release] at hs
  | timer now =>
    rcases quiet_timer now k with hq | hf
    · exact ⟨phase_eq_sent_iff.mp (hq.phase ▸ hp), schedulerTimer_waystation now k, hq.buffered,
        by simp⟩
    · exact absurd (hf.phase.symm.trans hp) (by simp)

/-- A connection to `u` that has received nothing yet. -/
structure Conn.Opening (k : Conn) (u : Tuple) : Prop extends Conn.Blank k where
  tuple : k.box.tuple = u

theorem Conn.Opening.step (h : k.Opening u) (hl : e.Legal k) (hc : e.isClaim = false)
    (hs : (k.step e).rapport.status = .synSent) : (k.step e).Opening u := by
  obtain ⟨-, hway, hbuf, ha⟩ := sent_step hl hc hs
  have ht := Tends.step e hc ha k
  have he : e ≠ .expire := by
    rintro rfl
    simp [Conn.step, rapportExpire, Conn.setStatus, Conn.release] at hs
  rcases goes_step e hl hc he with hg | ⟨-, hd⟩
  · refine ⟨⟨hg.inUse.trans h.inUse, ?_, ht.synced h.synced, ?_⟩, hg.tuple.trans h.tuple⟩
    · have := h.buffered
      omega
    · rw [hway, ht.generation]
      exact h.held
  · exact absurd (hd.closed.symm.trans hs) (by simp)

theorem Conn.Opening.run {es : List ConnEvent} (h : k.rapport.status = .synSent → k.Opening u)
    (hl : Along Conn.step (fun k e => e.Legal k) k es) (hc : ∀ e ∈ es, e.isClaim = false)
    (hs : (run Conn.step k es).rapport.status = .synSent) :
    (run Conn.step k es).Opening u := by
  induction es generalizing k with
  | nil => exact h hs
  | cons e es ih =>
    refine ih (fun hs' => ?_) hl.2 (fun e' he' => hc e' (by simp [he'])) hs
    have he := hc e (by simp)
    exact (h (sent_step hl.1 he hs').1).step hl.1 he hs'

/-- A well-formed SYN-ACK on the connection `u` with acknowledgement number `ack`. -/
structure IsSynAck (p : Packet) (src dst : Ip4) (u : Tuple) (ack : Word) : Prop where
  checked : conversationCheck p.bytes src dst = .accept
  tuple : (decode p.bytes).tuple src = u
  syn : (decode p.bytes).syn = true
  isAck : (decode p.bytes).isAck = true
  rst : (decode p.bytes).rst = false
  ack : (decode p.bytes).ack = ack

theorem conversationAnswer_synAck {p : Packet} (hs : k.rapport.status = .synSent)
    (hp : IsSynAck p src dst u (k.rapport.ourIsn + 1)) :
    conversationAnswer k (decode p.bytes) = { k with rapport := { k.rapport with
      expectedSeq := (decode p.bytes).seq + 1
      status := .established
      sendSeq := k.rapport.ourIsn + 1 } } := by
  unfold conversationAnswer
  rw [if_neg (by simp [hp.rst]), if_pos (by simp [hp.syn, hp.isAck]), rapportOnSynAck,
    if_neg (not_not.mpr hs), if_neg (not_not.mpr hp.ack)]

theorem findListener_isSome (hu : (s.conns c).box.inUse = true)
    (h6 : (s.conns c).box.protocol = 6) :
    (lockboxFindListener s.lockbox (s.conns c).box.localPort 6).isSome = true := by
  cases hf : lockboxFindListener s.lockbox (s.conns c).box.localPort 6 with
  | some _ => rfl
  | none =>
    have := Fin.eq_false_of_find?_eq_none hf c
    simp [Net.lockbox, hu, h6] at this

theorem conversationHandle_synAck {p : Packet} (hunique : s.lockbox.Unique)
    (hs : (s.conns c).rapport.status = .synSent) (hu : (s.conns c).box.inUse = true)
    (htuple : (s.conns c).box.tuple = u)
    (hp : IsSynAck p src dst u ((s.conns c).rapport.ourIsn + 1)) :
    (conversationHandle s p src dst).conns c =
      if menuIsOpen s.office.menu u.localPort 6 then conversationAnswer (s.conns c) (decode p.bytes)
      else s.conns c := by
  have hport : (decode p.bytes).dstPort = u.localPort := congrArg Tuple.localPort hp.tuple
  have hlocal : u.localPort = (s.conns c).box.localPort := (congrArg Tuple.localPort htuple).symm
  have h6 : (s.conns c).box.protocol = 6 := congrArg Tuple.protocol (htuple.trans hp.tuple.symm)
  have hlistener : (lockboxFindListener s.lockbox u.localPort 6).isSome = true := by
    rw [hlocal]
    exact findListener_isSome hu h6
  have hadmits : s.admits p src dst = menuIsOpen s.office.menu u.localPort 6 := by
    unfold Net.admits
    rw [hp.checked, hport, hlistener]
    simp
  unfold conversationHandle
  rw [hadmits]
  split
  · have hfind : lockboxFindConnection s.lockbox ((decode p.bytes).tuple src) = some c :=
      hunique.find_iff.mpr ⟨hu, htuple.trans hp.tuple.symm⟩
    unfold Net.handle
    rw [hfind]
    dsimp only
    rw [if_pos hs, act_conns_self]
    rfl
  · rfl

theorem established_iff_on_menu {p : Packet} (hunique : s.lockbox.Unique)
    (hs : (s.conns c).rapport.status = .synSent)
    (htaken : (s.conns c).box.inUse = true ∧ (s.conns c).box.tuple = u)
    (hp : IsSynAck p src dst u ((s.conns c).rapport.ourIsn + 1)) :
    ((conversationHandle s p src dst).conns c).rapport.status = .established ↔
      menuIsOpen s.office.menu u.localPort 6 = true := by
  rw [conversationHandle_synAck hunique hs htaken.1 htaken.2 hp]
  split
  · rename_i hmenu
    rw [conversationAnswer_synAck hs hp]
    exact iff_of_true rfl hmenu
  · rename_i hmenu
    exact iff_of_false (by simp [hs]) hmenu

theorem Conn.Opening.established {p : Packet} (h : (s.conns c).Opening u)
    (hunique : s.lockbox.Unique) (hs : (s.conns c).rapport.status = .synSent)
    (hp : IsSynAck p src dst u ((s.conns c).rapport.ourIsn + 1))
    (hest : ((conversationHandle s p src dst).conns c).rapport.status = .established) :
    ((conversationHandle s p src dst).conns c).Fresh (decode p.bytes).seq ∧
      ((conversationHandle s p src dst).conns c).box.tuple = u := by
  have hmenu := (established_iff_on_menu hunique hs ⟨h.inUse, h.tuple⟩ hp).mp hest
  rw [conversationHandle_synAck hunique hs h.inUse h.tuple hp, if_pos hmenu,
    conversationAnswer_synAck hs hp]
  exact ⟨⟨⟨h.inUse, h.buffered, h.synced, h.held⟩, .inr rfl, rfl⟩, h.tuple⟩

def sampleSynAck : Packet :=
  Segment.packet ⟨9000, 49152, 7, 2627806352, 0x12, 4096, []⟩ samplePeer sampleIp length_nil_lt

def openOffice : Office :=
  { sampleOffice with menu := (menuOpenPort sampleOffice.menu 49152 6).2 }

end Aevros
