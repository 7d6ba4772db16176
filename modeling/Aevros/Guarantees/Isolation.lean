import Aevros.Sockets.Journal
import Aevros.Tcp.Dispatch

/-! # Sockets that outlive their connections

A socket keeps the number of its slot and not the generation, so its calls reach a later connection
unless that is in a state in which they do nothing.
-/

namespace Aevros

open Runs

variable {s : Net} {i : Fin frontdoorMaxSockets} {c : Slot}

/-- An event of the system, or one round of the loop of `frontdoor_tick`. -/
inductive Round
  | event (e : Event)
  | tick (i : Fin frontdoorMaxSockets)

def Net.round (s : Net) : Round → Net
  | .event e => s.step e
  | .tick i => frontdoorTickSocket s i

def Event.rounds : Event → List Round
  | .frontdoorTick => (List.finRange frontdoorMaxSockets).map .tick
  | e => [.event e]

/-- The slot of the IPv4 socket was claimed again since the socket got it. -/
structure Net.Stale (s : Net) (i : Fin frontdoorMaxSockets) (c : Slot) : Prop where
  kind : (s.sockets i).kind = .tcp
  connId : (s.sockets i).connId = some c
  reclaimed : (s.sockets i).obtained ≠ s.claims c

/-- From `s` to `s'` nothing was sent on the connection in slot `c`, and it was not closed. -/
def Net.Spares (s : Net) (c : Slot) (s' : Net) : Prop :=
  Untraced s.office (s.conns c) s'.office (s'.conns c)

/-- A call on a socket leaves the connections alone that came after its own. -/
def Net.Isolates (s : Net) : Round → Prop
  | .event (.send fd buf) => ∀ i ∈ s.socket fd, ∀ c, s.Stale i c →
      s.Spares c (frontdoorSend s fd buf).2
  | .event (.recv fd maxLen) => ∀ i ∈ s.socket fd, ∀ c, s.Stale i c →
      (frontdoorRecv s fd maxLen).1.2 = []
  | .event (.close fd) => ∀ i ∈ s.socket fd, ∀ c, s.Stale i c → s.Spares c (frontdoorClose s fd).2
  | .tick i => ∀ c, s.Stale i c → s.Spares c (frontdoorTickSocket s i)
  | _ => True

structure Conn.Readable (k : Conn) (maxLen : ℕ) : Prop where
  accepted : k.acceptedGeneration = k.box.generation
  wanted : maxLen ≠ 0
  available : (inboxAvailable k.box k.inbox).1 ≠ 0

/-- The present connection is in no state in which the call on an old socket would act on it. -/
def Net.Harmless (s : Net) : Round → Prop
  | .event (.send fd buf) => ∀ i ∈ s.socket fd, ∀ c, s.Stale i c → (s.sockets i).listening = false →
        ¬ ((s.conns c).Sendable buf ∧ s.office.Takes (s.conns c).box.remoteIp)
  | .event (.recv fd maxLen) => ∀ i ∈ s.socket fd, ∀ c, s.Stale i c →
      (s.sockets i).listening = false → ¬ (s.conns c).Readable maxLen
  | .event (.close fd) => ∀ i ∈ s.socket fd, ∀ c, s.Stale i c → (s.sockets i).listening = false →
        ¬ ((s.conns c).Closable ∧ s.office.Takes (s.conns c).box.remoteIp)
  | .tick i => ∀ c, s.Stale i c → (s.sockets i).inUse = true → (s.sockets i).closing = true →
      (s.sockets i).listening = false →
        ¬ ((s.conns c).Closable ∧ s.office.Takes (s.conns c).box.remoteIp)
  | _ => True

theorem switchboardRecv_nil_iff (k : Conn) (maxLen : ℕ) :
    (switchboardRecv k maxLen).1 = [] ↔ ¬ k.Readable maxLen := by
  unfold switchboardRecv
  split_ifs with ha
  · exact iff_of_true rfl fun h => ha h.accepted
  · have hlen : (k.read maxLen).1.length = if maxLen < (inboxAvailable k.box k.inbox).1 then maxLen
        else (inboxAvailable k.box k.inbox).1 := Ring.length_read ..
    rw [← List.length_eq_zero_iff, hlen]
    constructor
    · intro h hr
      have hwanted := hr.wanted
      have havailable := hr.available
      split_ifs at h
      · exact hwanted h
      · exact havailable h
    · intro h
      by_contra hn
      refine h ⟨not_not.mp ha, ?_, ?_⟩
      · split_ifs at hn <;> omega
      · intro h₀
        rw [h₀] at hn
        simp at hn

theorem Net.Spares.refl (s : Net) (c : Slot) : s.Spares c s := ⟨rfl, rfl, rfl, rfl, rfl⟩

theorem frontdoorSend_spares_iff {fd : ℤ} (hi : s.socket fd = some i) (h : s.Stale i c)
    (buf : List Byte) :
    s.Spares c (frontdoorSend s fd buf).2 ↔ ((s.sockets i).listening = false →
      ¬ ((s.conns c).Sendable buf ∧ s.office.Takes (s.conns c).box.remoteIp)) := by
  unfold frontdoorSend
  rw [hi]
  dsimp only
  cases hl : (s.sockets i).listening with
  | true => exact iff_of_true (.refl s c) (by simp)
  | false =>
    rw [h.kind, h.connId, forall_prop_of_true rfl, Net.Spares]
    simp only [Bool.false_eq_true, if_false]
    rw [Net.act_conns_self]
    exact switchboardSend_untraced_iff s.office (s.conns c) buf (getIdentity s.office)

theorem frontdoorRecv_nil_iff {fd : ℤ} (hi : s.socket fd = some i) (h : s.Stale i c) (maxLen : ℕ) :
    (frontdoorRecv s fd maxLen).1.2 = [] ↔
      ((s.sockets i).listening = false → ¬ (s.conns c).Readable maxLen) := by
  unfold frontdoorRecv
  rw [hi]
  dsimp only
  cases hl : (s.sockets i).listening with
  | true => exact iff_of_true rfl (by simp)
  | false =>
    rw [h.kind, h.connId, forall_prop_of_true rfl]
    exact switchboardRecv_nil_iff (s.conns c) maxLen

theorem trySendFin_spares_iff (h : s.Stale i c) :
    s.Spares c (trySendFin s i).2 ↔ ((s.sockets i).listening = false →
      ¬ ((s.conns c).Closable ∧ s.office.Takes (s.conns c).box.remoteIp)) := by
  unfold trySendFin
  dsimp only
  cases hl : (s.sockets i).listening with
  | true => exact iff_of_true (.refl s c) (by simp)
  | false =>
    rw [h.kind, h.connId, forall_prop_of_true rfl]
    simp only [Bool.false_eq_true, if_false]
    split
    · rw [Net.Spares]
      rw [Net.act_conns_self]
      exact switchboardClose_untraced_iff s.office (s.conns c) (getIdentity s.office)
    · rename_i hst
      exact iff_of_true (.refl s c) fun hc => hst hc.1.status

theorem frontdoorClose_spares_iff {fd : ℤ} (hi : s.socket fd = some i) :
    s.Spares c (frontdoorClose s fd).2 ↔ s.Spares c (trySendFin s i).2 := by
  unfold frontdoorClose
  rw [hi]
  dsimp only
  generalize trySendFin s i = r
  obtain ⟨_ | _, s'⟩ := r <;> exact Iff.rfl

theorem frontdoorTickSocket_spares_iff :
    s.Spares c (frontdoorTickSocket s i) ↔ ((s.sockets i).inUse = true →
      (s.sockets i).closing = true → s.Spares c (trySendFin s i).2) := by
  unfold frontdoorTickSocket
  split
  · rename_i hc
    obtain ⟨hu, hclosing⟩ := Bool.and_eq_true_iff.mp hc
    rw [forall_prop_of_true hu, forall_prop_of_true hclosing]
    generalize trySendFin s i = r
    obtain ⟨_ | _, s'⟩ := r <;> exact Iff.rfl
  · rename_i hc
    refine iff_of_true (.refl s c) fun hu hclosing => ?_
    exact absurd (Bool.and_eq_true_iff.mpr ⟨hu, hclosing⟩) hc

theorem isolates_iff_harmless (s : Net) (a : Round) : s.Isolates a ↔ s.Harmless a := by
  cases a with
  | tick i =>
    refine forall_congr' fun c => forall_congr' fun h => ?_
    rw [frontdoorTickSocket_spares_iff, trySendFin_spares_iff h]
  | event e =>
    cases e with
    | send fd buf =>
      exact forall_congr' fun i => forall_congr' fun hi => forall_congr' fun c =>
        forall_congr' fun h => frontdoorSend_spares_iff hi h buf
    | recv fd maxLen =>
      exact forall_congr' fun i => forall_congr' fun hi => forall_congr' fun c =>
        forall_congr' fun h => frontdoorRecv_nil_iff hi h maxLen
    | close fd =>
      refine forall_congr' fun i => forall_congr' fun hi => forall_congr' fun c =>
        forall_congr' fun h => ?_
      rw [frontdoorClose_spares_iff hi, trySendFin_spares_iff h]
    | _ => exact Iff.rfl

/-- Old sockets leave later connections alone exactly if none finds one that it can act on. -/
theorem old_sockets_isolated_iff (o : Office) (es : List Event) :
    Along Net.round Net.Isolates (Net.boot o) (es.flatMap Event.rounds) ↔
      Along Net.round Net.Harmless (Net.boot o) (es.flatMap Event.rounds) :=
  along_congr (I := fun _ => True) (L := fun _ _ => True) (fun _ _ _ _ _ => trivial)
    (fun s a _ _ => isolates_iff_harmless s a) trivial (along_of_forall fun _ _ => trivial)

def otherPeer : Ip4 := ⟨10, 0, 2, 3⟩

def fromOther (seq ack : Word) (flags : Byte) (data : List Byte)
    (h : data.length < 65516 := by first | with_reducible exact length_nil_lt | simp) : Event :=
  .segment (Segment.packet ⟨2002, 80, seq, ack, flags, 4096, data⟩ otherPeer sampleIp h)
    otherPeer sampleIp

def reuseRun : List Event :=
  sampleHandshake ++ [fromPeer 8 0 0x04 [], fromOther 20 0 0x02 [],
    fromOther 21 2373926815 0x10 [0x73], .accept 0]

theorem old_socket_acts_on_new_connection :
    let s := run Net.step (Net.boot { sampleOffice with
      rolodex := rolodexLearn 0 sampleOffice.rolodex otherPeer ⟨3, 3, 3, 3, 3, 3⟩ }) reuseRun
    ((s.sockets 1).connId = some 1 ∧ (s.sockets 1).obtained = 1) ∧
      ((s.sockets 2).connId = some 1 ∧ (s.sockets 2).obtained = 2) ∧ s.claims 1 = 2 ∧
      (s.conns 1).box.remoteIp = otherPeer ∧
      (frontdoorRecv s 1 9).1 = (1, [0x73]) ∧
      (frontdoorSend s 1 [0x61]).1 = 1 ∧
      (frontdoorSend s 1 [0x61]).2.office.wire = s.office.wire ++
        [(s.conns 1).dataFrame [0x61] (getIdentity s.office) ⟨3, 3, 3, 3, 3, 3⟩] ∧
      ((frontdoorClose s 1).2.conns 1).rapport.status = .finWait1 := by
  decide +kernel

end Aevros
