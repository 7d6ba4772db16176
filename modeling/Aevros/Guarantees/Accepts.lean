import Aevros.Guarantees.Binding
import Aevros.Library.Handout
import Aevros.Six.SwitchBoard

/-! # Accepting with a full socket table

`frontdoor_accept` marks a connection as handed out before it looks for a free socket, so with a
full table the connection is lost.
-/

namespace Aevros

open Function Fin

def Conn.ready (port : Port) (k : Conn) : Bool :=
  k.box.inUse && k.box.localPort = port && k.box.protocol = 6 &&
    k.acceptedGeneration ≠ k.box.generation && k.rapport.status = .established

def Line6.ready (port : Port) (l : Line6) : Bool :=
  l.conn.box.inUse && l.conn.box.localPort = port && l.conn.box.protocol = 6 &&
    l.acceptedGeneration ≠ l.conn.box.generation && l.conn.rapport.status = .established

def SocketEntry.connection (e : SocketEntry) : Option (Slot ⊕ Slot6) :=
  if e.kind = .tcp6 then e.connId6.map .inr else e.connId.map .inl

namespace Host

variable {h : Host} {fd : ℤ} {i j : Fin frontdoorMaxSockets} {c c' : Slot ⊕ Slot6}

def vacate (j : Fin frontdoorMaxSockets) (h : Host) : Host :=
  { h with net := h.net.setSocket j { h.net.sockets j with inUse := false } }

/-- The connection of the socket that a call of `frontdoor_accept` returns. -/
def handsOut (h : Host) (fd : ℤ) : Option (Slot ⊕ Slot6) :=
  let r := h.accept fd
  (r.2.net.socket r.1).bind fun j => (r.2.net.sockets j).connection

/-- Some later call returns the connection, if another socket is free at each. -/
def CanAccept (h : Host) (fd : ℤ) (c : Slot ⊕ Slot6) : Prop :=
  ∃ j, h.net.socket fd ≠ some j ∧
    ∃ n, handsOut (vacate j ((fun h => (accept (vacate j h) fd).2)^[n] h)) fd = some c

def ready (h : Host) (i : Fin frontdoorMaxSockets) : Slot ⊕ Slot6 → Bool
  | .inl c => (h.net.sockets i).kind ≠ .tcp6 && (h.net.conns c).ready (h.net.sockets i).localPort
  | .inr c => (h.net.sockets i).kind = .tcp6 && (h.lines6 c).ready (h.net.sockets i).localPort

def mark (h : Host) : Slot ⊕ Slot6 → Host
  | .inl c => { h with net := h.net.act c .accept }
  | .inr c => ⟨h.net, update h.lines6 c
      { h.lines6 c with acceptedGeneration := (h.lines6 c).conn.box.generation }⟩

theorem findFreeSlot_cases (s : Net) :
    (∀ j, (s.sockets j).inUse = true) ∧ findFreeSlot s = (none, s) ∨
      ∃ j, (s.sockets j).inUse = false ∧
        findFreeSlot s = (some j, s.setSocket j { s.sockets j with closing := false }) := by
  unfold findFreeSlot
  cases hf : find? fun i => !(s.sockets i).inUse with
  | none => exact .inl ⟨fun j => by simpa using find?_eq_none_iff.mp hf j, rfl⟩
  | some j => exact .inr ⟨j, by simpa using (find?_eq_some_iff.mp hf).1, rfl⟩

theorem switchboardAccept_cases (s : Net) (port : Port) :
    (∀ c, (s.conns c).ready port = false) ∧ switchboardAccept s port = (none, s) ∨
      ∃ c, (s.conns c).ready port = true ∧
        switchboardAccept s port = (some c, s.act c .accept) := by
  unfold switchboardAccept
  split
  case h_1 hf =>
    exact .inl ⟨fun c => by simpa [Conn.ready] using find?_eq_none_iff.mp hf c, rfl⟩
  case h_2 c hf => exact .inr ⟨c, (find?_eq_some_iff.mp hf).1, rfl⟩

theorem switchboard6Accept_cases (t : Slot6 → Line6) (port : Port) :
    (∀ c, (t c).ready port = false) ∧ switchboard6Accept t port = (none, t) ∨
      ∃ c, (t c).ready port = true ∧ switchboard6Accept t port = (some c, update t c
        { t c with acceptedGeneration := (t c).conn.box.generation }) := by
  unfold switchboard6Accept
  split
  case h_1 hf =>
    exact .inl ⟨fun c => by simpa [Line6.ready] using find?_eq_none_iff.mp hf c, rfl⟩
  case h_2 c hf => exact .inr ⟨c, (find?_eq_some_iff.mp hf).1, rfl⟩

@[simp] theorem setSocket_setSocket (s : Net) (j : Fin frontdoorMaxSockets) (e e' : SocketEntry) :
    (s.setSocket j e).setSocket j e' = s.setSocket j e' := by
  simp [Net.setSocket]

theorem accept_cases (hi : h.net.socket fd = some i) (hl : (h.net.sockets i).listening = true) :
    (∀ c, h.ready i c = false) ∧ h.accept fd = (-1, h) ∨
    ∃ c, h.ready i c = true ∧
      ((∀ j, (h.net.sockets j).inUse = true) ∧ h.accept fd = (-1, h.mark c) ∨
        ∃ (j : _) (e : SocketEntry), (h.net.sockets j).inUse = false ∧ e.inUse = true ∧
          e.connection = some c ∧ (h.accept fd).1 = (j : ℕ) ∧
          (h.accept fd).2 = ⟨(h.mark c).net.setSocket j e, (h.mark c).lines6⟩) := by
  by_cases hkind : (h.net.sockets i).kind = .tcp6
  · rcases switchboard6Accept_cases h.lines6 (h.net.sockets i).localPort with
      ⟨hnone, heq⟩ | ⟨c, hc, heq⟩
    · left
      constructor
      · rintro (c | c)
        · simp [ready, hkind]
        · simp [ready, hnone]
      · simp [accept, hi, hkind, heq]
    · right
      refine ⟨.inr c, by simp [ready, hkind, hc], ?_⟩
      rcases findFreeSlot_cases h.net with ⟨hfull, hfree⟩ | ⟨j, hj, hfree⟩
      · exact .inl ⟨hfull, by simp [accept, hi, hl, hkind, heq, hfree, mark]⟩
      · right
        let s := h.net.setSocket j { h.net.sockets j with closing := false }
        exact ⟨j, { s.sockets j with
            kind := .tcp6, listening := false, connId6 := some c,
            localPort := (s.sockets i).localPort, inUse := true }, hj, rfl, rfl,
          by simp [accept, hi, hl, hkind, heq, hfree, mark, s]⟩
  · rcases switchboardAccept_cases h.net (h.net.sockets i).localPort with
      ⟨hnone, heq⟩ | ⟨c, hc, heq⟩
    · left
      constructor
      · rintro (c | c)
        · simp [ready, hnone]
        · simp [ready, hkind]
      · simp [accept, frontdoorAccept, hi, hkind, heq]
    · right
      refine ⟨.inl c, by simp [ready, hkind, hc], ?_⟩
      rcases findFreeSlot_cases (h.net.act c .accept) with ⟨hfull, hfree⟩ | ⟨j, hj, hfree⟩
      · exact .inl ⟨hfull, by
          simp [accept, frontdoorAccept, hi, hl, hkind, heq, hfree, mark]⟩
      · right
        let s := (h.net.act c .accept).setSocket j
          { (h.net.act c .accept).sockets j with closing := false }
        exact ⟨j, { s.sockets j with
            kind := .tcp, listening := false, connId := some c,
            localPort := (s.sockets i).localPort, inUse := true, obtained := s.claims c },
          hj, rfl, rfl, by simp [accept, frontdoorAccept, hi, hl, hkind, heq, hfree],
          by simp [accept, frontdoorAccept, hi, hl, hkind, heq, hfree, mark, s]⟩

structure Listens (h : Host) (fd : ℤ) (i : Fin frontdoorMaxSockets) : Prop where
  socket : h.net.socket fd = some i
  listening : (h.net.sockets i).listening = true

theorem sockets_mark (h : Host) (c : Slot ⊕ Slot6) : (h.mark c).net.sockets = h.net.sockets := by
  cases c <;> rfl

theorem ready_mark : (h.mark c).ready i c' = true ↔ h.ready i c' = true ∧ c' ≠ c := by
  cases c' with
  | inl c' =>
    simp only [ready, Bool.and_eq_true, decide_eq_true_eq]
    rcases c with c | c
    · rcases eq_or_ne c' c with rfl | hc
      · simp [mark, Conn.ready, Conn.step]
      · simp [mark, Net.act, hc]
    · simp [mark]
  | inr c' =>
    simp only [ready, sockets_mark, Bool.and_eq_true, decide_eq_true_eq]
    rcases c with c | c
    · simp [mark]
    · rcases eq_or_ne c' c with rfl | hc
      · simp [mark, Line6.ready]
      · simp [mark, hc]

theorem ready_setSocket (hj : j ≠ i) (s : Net) (t : Slot6 → Line6) (e : SocketEntry) :
    ready ⟨s.setSocket j e, t⟩ i = ready ⟨s, t⟩ i := by
  ext (c | c) <;> simp [ready, Net.setSocket, update_of_ne hj.symm]

theorem ready_vacate (hj : j ≠ i) : (h.vacate j).ready i = h.ready i := ready_setSocket hj _ _ _

theorem vacated (h : Host) (j : Fin frontdoorMaxSockets) :
    ((h.vacate j).net.sockets j).inUse = false := by
  simp [vacate, Net.setSocket]

namespace Listens

variable (hi : h.Listens fd i)

include hi

theorem setSocket (hj : j ≠ i) {s : Net} {t : Slot6 → Line6}
    (hs : s.sockets = h.net.sockets) (e : SocketEntry) : Listens ⟨s.setSocket j e, t⟩ fd i := by
  have hsame : ((s.setSocket j e).sockets i) = h.net.sockets i := by
    simp only [Net.setSocket, update_of_ne hj.symm, hs]
  have hfd := Net.socket_eq_some_iff.mp hi.socket
  constructor
  · rw [Net.socket_eq_some_iff]
    exact ⟨hfd.1, by rw [hsame, hfd.2]⟩
  · simp only [hsame, hi.listening]

theorem vacate (hj : j ≠ i) : (h.vacate j).Listens fd i :=
  hi.setSocket hj rfl _

theorem mark (c : Slot ⊕ Slot6) : (h.mark c).Listens fd i := by
  cases c <;> exact ⟨hi.socket, hi.listening⟩

theorem accept_with_room (hroom : (h.net.sockets j).inUse = false) :
    (∀ c, h.ready i c = false) ∧ h.handsOut fd = none ∧ (h.accept fd).2 = h ∨
      ∃ c, h.ready i c = true ∧ h.handsOut fd = some c ∧ (h.accept fd).2.Listens fd i ∧
        (h.accept fd).2.ready i = (h.mark c).ready i := by
  rcases accept_cases hi.socket hi.listening with
    ⟨hnone, heq⟩ | ⟨c, hc, ⟨hfull, -⟩ | ⟨j', e, hj', he, hec, hfst, hsnd⟩⟩
  · left
    have hfail : h.net.socket (-1) = none := by simp [Net.socket]
    exact ⟨hnone, by simp [handsOut, heq, hfail], by rw [heq]⟩
  · simp [hfull j] at hroom
  · right
    have hne : j' ≠ i := by
      rintro rfl
      simp [(Net.socket_eq_some_iff.mp hi.socket).2] at hj'
    refine ⟨c, hc, ?_, ?_, ?_⟩
    · have hsock : (h.accept fd).2.net.socket (h.accept fd).1 = some j' := by
        rw [hfst, hsnd, Net.socket_eq_some_iff]
        simp [Net.setSocket, he]
      simp only [handsOut, hsock]
      rw [hsnd]
      simp [Net.setSocket, hec]
    · rw [hsnd]
      exact hi.setSocket hne (sockets_mark h c) e
    · rw [hsnd, ready_setSocket hne]

end Listens

theorem serves (hj : j ≠ i) : Handout.Serves (fun h => h.Listens fd i)
    (fun h => (accept (vacate j h) fd).2) (fun h => handsOut (vacate j h) fd)
    (fun h => Finset.univ.filter fun c => h.ready i c = true) where
  keeps h hi := by
    rcases (hi.vacate hj).accept_with_room (h.vacated j) with ⟨-, -, heq⟩ | ⟨c, -, -, hl, -⟩
    · rw [heq]
      exact hi.vacate hj
    · exact hl
  idle h hi hempty := by
    rcases (hi.vacate hj).accept_with_room (h.vacated j) with
      ⟨hnone, hout, heq⟩ | ⟨c, hc, -, -, -⟩
    · refine ⟨hout, ?_⟩
      rw [heq]
      simp [hnone]
    · rw [ready_vacate hj] at hc
      exact absurd hc (Finset.filter_eq_empty_iff.mp hempty (Finset.mem_univ c))
  hands h hi hne := by
    rcases (hi.vacate hj).accept_with_room (h.vacated j) with
      ⟨hnone, -, -⟩ | ⟨c, hc, hout, -, hready⟩
    · rw [ready_vacate hj] at hnone
      simp [hnone] at hne
    · rw [ready_vacate hj] at hc
      refine ⟨c, by simpa using hc, hout, ?_⟩
      ext c'
      rw [hready]
      simp [ready_mark, ready_vacate hj, and_comm]

theorem canAccept_iff (hi : h.Listens fd i) : h.CanAccept fd c ↔ h.ready i c = true := by
  have hiff : ∀ j, j ≠ i → ((∃ n, handsOut (vacate j
      ((fun h => (accept (vacate j h) fd).2)^[n] h)) fd = some c) ↔ h.ready i c = true) := by
    intro j hj
    rw [(serves hj).exists_out_iff hi]
    simp
  constructor
  · rintro ⟨j, hj, hn⟩
    rw [hi.socket] at hj
    exact (hiff j (fun heq => hj (by rw [heq]))).mp hn
  · intro hc
    obtain ⟨j, hj⟩ : ∃ j, j ≠ i := exists_ne i
    exact ⟨j, by rw [hi.socket]; simpa using hj.symm, (hiff j hj).mpr hc⟩

/-- A failed call loses no connection exactly if a socket was free or no connection was ready. -/
theorem failed_accept_loses_nothing_iff (hi : h.Listens fd i) :
    ((h.accept fd).1 = -1 → ∀ c, h.CanAccept fd c → (h.accept fd).2.CanAccept fd c) ↔
      (∃ j, (h.net.sockets j).inUse = false) ∨ ∀ c, h.ready i c = false := by
  rcases accept_cases hi.socket hi.listening with
    ⟨hnone, heq⟩ | ⟨c, hc, ⟨hfull, heq⟩ | ⟨j, e, hj, -, -, hfst, -⟩⟩
  · rw [heq]
    exact iff_of_true (fun _ c hc => hc) (.inr hnone)
  · rw [heq]
    apply iff_of_false
    · intro hkept
      have hlost := hkept rfl c ((canAccept_iff hi).mpr hc)
      rw [canAccept_iff (hi.mark c), ready_mark] at hlost
      exact hlost.2 rfl
    · rintro (⟨j, hj⟩ | hnone)
      · simp [hfull j] at hj
      · simp [hnone c] at hc
  · exact iff_of_true (fun hneg => by omega) (.inl ⟨j, hj⟩)

def fullTable : Host where
  net := Runs.run Net.step (Net.boot sampleOffice)
    ([.socket 1, .bind 0 80, fromPeer 7 0 0x02 [], fromPeer 8 (sampleIsn + 1) 0x10 []] ++
      List.replicate 31 (.socket 1))

theorem listens_fullTable : fullTable.Listens 0 0 := ⟨by decide +kernel, by decide +kernel⟩

theorem accept_with_one_free : (fullTable.vacate 5).Listens 0 0 ∧
      (((fullTable.vacate 5).accept 0).1 = -1 → ∀ c, (fullTable.vacate 5).CanAccept 0 c →
        ((fullTable.vacate 5).accept 0).2.CanAccept 0 c) :=
  have hlistens := listens_fullTable.vacate (by decide)
  ⟨hlistens, (failed_accept_loses_nothing_iff hlistens).mpr (.inl ⟨5, vacated fullTable 5⟩)⟩

theorem caller_lost_when_full :
    fullTable.Listens 0 0 ∧ (fullTable.accept 0).1 = -1 ∧ fullTable.CanAccept 0 (.inl 1) ∧
      ¬ (fullTable.accept 0).2.CanAccept 0 (.inl 1) := by
  have hafter : (fullTable.accept 0).2.Listens 0 0 := ⟨by decide +kernel, by decide +kernel⟩
  refine ⟨listens_fullTable, by decide +kernel, ?_, ?_⟩
  · rw [canAccept_iff listens_fullTable]
    decide +kernel
  · rw [canAccept_iff hafter]
    decide +kernel

end Host

end Aevros
