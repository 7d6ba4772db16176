import Aevros.Guarantees.LifeCycle

/-! # Bound ports

Nothing ever releases a slot that a bind claimed, so a port that was bound once can never be bound
again.
-/

namespace Aevros

open Runs

variable {k : Conn} {u : Tuple} {s : Net} {c : Slot} {i : Fin frontdoorMaxSockets} {fd : ℤ}

/-- The row of a bound port: in use, and never opened as a connection. -/
structure Conn.Bound (k : Conn) (u : Tuple) : Prop where
  inUse : k.box.inUse = true
  closed : k.rapport.status = .closed
  tuple : k.box.tuple = u

theorem Conn.Bound.step (h : k.Bound u) (e : ConnEvent) (hl : e.Legal k) : (k.step e).Bound u := by
  have hc : e.isClaim = false := by
    cases e with
    | syn | cookie | connect => exact absurd h.inUse (by simp [hl.1])
    | listen => exact absurd h.inUse (by simp [show k.box.inUse = false from hl])
    | _ => rfl
  have he : e ≠ .expire := by
    rintro rfl
    have : k.rapport.status = .timeWait := hl
    simp [h.closed] at this
  rcases goes_step e hl hc he with hk | ⟨hn, -⟩
  · exact ⟨hk.inUse.trans h.inUse, hk.closed.mpr h.closed, hk.tuple.trans h.tuple⟩
  · exact absurd h.closed hn

theorem Net.bound_run (h : (s.conns c).Bound u) (es : List Event) :
    ((run Net.step s es).conns c).Bound u :=
  (Net.extends_run s es).preserves (J := (·.Bound u)) (fun _ e hk hl _ => hk.step e hl) h

theorem switchboardBind_of_bound {port : Port} {protocol : Byte}
    (h : (s.conns c).Bound (.listener port protocol)) :
    switchboardBind s port protocol = (false, s) := by
  have hf : (lockboxFindConnection s.lockbox (.listener port protocol)).isSome = true := by
    by_contra hn
    simp only [Option.not_isSome_iff_eq_none] at hn
    exact lockboxFindConnection_none hn (i := c) h.inUse h.tuple
  unfold switchboardBind lockboxListen lockboxClaim
  rw [if_pos hf]

theorem switchboardBind_true {port : Port} {protocol : Byte} {s' : Net}
    (h : switchboardBind s port protocol = (true, s')) :
    ∃ c, (s.conns c).box.inUse = false ∧ s' = s.act c (.listen port protocol) := by
  unfold switchboardBind at h
  split at h
  · simp at h
  · rename_i c t hc
    simp only [Prod.mk.injEq, true_and] at h
    exact ⟨c, Net.claim_free hc, h.symm⟩

theorem bound_act_listen (h : s.Live) (hf : (s.conns c).box.inUse = false) (port : Port)
    (protocol : Byte) :
    ((s.act c (.listen port protocol)).conns c).Bound (.listener port protocol) := by
  simp only [Net.act, Function.update_self]
  exact ⟨rfl, (h c).closed_of_free hf, rfl⟩

theorem activeCount_act_listen (hf : (s.conns c).box.inUse = false) (port : Port)
    (protocol : Byte) :
    lockboxActiveCount (s.act c (.listen port protocol)).lockbox =
      lockboxActiveCount s.lockbox + 1 := by
  have h := Table.countP_update_of_new (fun k : Conn => k.box.inUse) s.conns c
    ((s.conns c).step (.listen port protocol)) hf rfl
  exact h

def SockKind.protocol (kind : SockKind) : Byte := if kind = .tcp then 6 else 17

theorem frontdoorBind_eq (hi : s.socket fd = some i) (hk : (s.sockets i).kind ≠ .tcp6) (port : Port)
    :
    frontdoorBind s fd port =
      match switchboardBind s port (s.sockets i).kind.protocol with
      | (false, s') => (-1, s')
      | (true, s') => (0, s'.setSocket i { s'.sockets i with
          localPort := port
          listening := (s.sockets i).kind = .tcp || (s'.sockets i).listening }) := by
  unfold frontdoorBind
  rw [hi]
  dsimp only
  cases hkind : (s.sockets i).kind with
  | tcp6 => exact absurd hkind hk
  | tcp => rfl
  | udp => rfl

theorem trySendFin_of_bound_socket (h : (s.sockets i).listening = true ∨ (s.sockets i).kind = .udp)
    :
    trySendFin s i = (true, s) := by
  unfold trySendFin
  dsimp only
  split_ifs with hl
  · rfl
  · simp [h.resolve_left hl]

theorem Net.socket_setSocket {e : SocketEntry} (hi : s.socket fd = some i) (he : e.inUse = true) :
    (s.setSocket i e).socket fd = some i := by
  rw [Net.socket_eq_some_iff] at hi ⊢
  exact ⟨hi.1, by simp [Net.setSocket, he]⟩

/-- The descriptor is that of a bound socket. -/
def Net.Serves (s : Net) (fd : ℤ) (i : Fin frontdoorMaxSockets) : Prop :=
  s.socket fd = some i ∧ ((s.sockets i).listening = true ∨ (s.sockets i).kind = .udp)

theorem Net.Serves.close (h : s.Serves fd i) :
    frontdoorClose s fd = (0, s.setSocket i { s.sockets i with inUse := false }) := by
  unfold frontdoorClose
  rw [h.1]
  dsimp only
  rw [trySendFin_of_bound_socket h.2]

theorem frontdoorBind_of_success {port : Port} (hi : s.socket fd = some i)
    (hk : (s.sockets i).kind ≠ .tcp6) (hb : (frontdoorBind s fd port).1 = 0) :
    (frontdoorBind s fd port).2.Serves fd i ∧ ∃ c e, (s.conns c).box.inUse = false ∧
      (frontdoorBind s fd port).2 =
        (s.act c (.listen port (s.sockets i).kind.protocol)).setSocket i e := by
  rw [frontdoorBind_eq hi hk] at hb ⊢
  cases hsb : switchboardBind s port (s.sockets i).kind.protocol with
  | mk done s' =>
    cases done with
    | false => simp [hsb] at hb
    | true =>
      obtain ⟨c, hfree, rfl⟩ := switchboardBind_true hsb
      refine ⟨⟨?_, ?_⟩, c, _, hfree, rfl⟩
      · exact Net.socket_setSocket (s := s.act c _) hi (Net.socket_eq_some_iff.mp hi).2
      · cases hkind : (s.sockets i).kind with
        | tcp => simp [Net.setSocket]
        | udp => exact .inr (by simpa [Net.setSocket, Net.act] using hkind)
        | tcp6 => exact absurd hkind hk

/-- A port that was bound is held by its slot in every later state, whatever is closed. -/
theorem bound_port_never_returned (o : Office) (es ms fs : List Event) (fd : ℤ) (port : Port)
    (i : Fin frontdoorMaxSockets)
    (hi : (run Net.step (Net.boot o) es).socket fd = some i)
    (hk : ((run Net.step (Net.boot o) es).sockets i).kind ≠ .tcp6)
    (hb : (frontdoorBind (run Net.step (Net.boot o) es) fd port).1 = 0) :
    let s := run Net.step (Net.boot o) es
    let bound := (frontdoorBind s fd port).2
    let used := run Net.step bound ms
    let closed := frontdoorClose used fd
    let later := run Net.step closed.2 fs
    bound.Serves fd i ∧ lockboxActiveCount bound.lockbox = lockboxActiveCount s.lockbox + 1 ∧
      (∀ j, used.Serves fd j → closed.1 = 0 ∧
        lockboxActiveCount closed.2.lockbox = lockboxActiveCount used.lockbox) ∧
      (∃ c, (s.conns c).box.inUse = false ∧ (later.conns c).box.inUse = true ∧
        (later.conns c).box.tuple = .listener port (s.sockets i).kind.protocol) ∧
      ∀ fd' j, later.socket fd' = some j → (later.sockets j).kind = (s.sockets i).kind →
        (frontdoorBind later fd' port).1 = -1 := by
  intro s bound used closed later
  have hlive : s.Live := run_invariant Net.live_step (Net.live_boot o) es
  obtain ⟨hserves, c, e, hfree, heq⟩ := frontdoorBind_of_success hi hk hb
  have hbound : (bound.conns c).Bound (.listener port (s.sockets i).kind.protocol) := by
    rw [show bound = _ from heq]
    exact bound_act_listen hlive hfree port _
  have hlater : (later.conns c).Bound (.listener port (s.sockets i).kind.protocol) :=
    Net.bound_run (Net.bound_run (Net.bound_run hbound ms) [.close fd]) fs
  refine ⟨hserves, ?_, fun j hj => ?_, ⟨c, hfree, hlater.inUse, hlater.tuple⟩, ?_⟩
  · rw [show bound = _ from heq]
    exact activeCount_act_listen hfree port _
  · rw [show closed = _ from hj.close]
    exact ⟨rfl, rfl⟩
  · intro fd' j hj hkind
    rw [frontdoorBind_eq hj (by rw [hkind]; exact hk), hkind, switchboardBind_of_bound hlater]

theorem bound_port_never_returned_sample :
    let s := run Net.step (Net.boot sampleOffice) [.socket 1]
    let used := run Net.step (frontdoorBind s 0 80).2 (sampleHandshake.drop 2)
    let closed := frontdoorClose used 0
    let later := run Net.step closed.2 [.socket 1]
    (used.sockets 1).inUse = true ∧ closed.1 = 0 ∧ (frontdoorBind later 0 80).1 = -1 := by
  have h := bound_port_never_returned sampleOffice [.socket 1] (sampleHandshake.drop 2) [.socket 1]
    0 80 0 (by decide +kernel) (by decide +kernel) (by decide +kernel)
  refine ⟨by decide +kernel, (h.2.2.1 0 ⟨by decide +kernel, .inl (by decide +kernel)⟩).1, ?_⟩
  exact h.2.2.2.2 0 0 (by decide +kernel) (by decide +kernel)

theorem closed_port_cannot_be_bound_again :
    let s := run Net.step (Net.boot sampleOffice) [.socket 1, .bind 0 80, .close 0, .socket 1]
    (s.conns 0).box.inUse = true ∧ lockboxActiveCount s.lockbox = 1 ∧
      (frontdoorBind s 0 80).1 = -1 := by
  decide +kernel

end Aevros
