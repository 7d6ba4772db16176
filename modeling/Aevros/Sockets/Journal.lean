import Aevros.Sockets.Frontdoor

/-! # The system seen from one slot

The system changes the row of a slot only by events that are legal for the row. A property of rows
that legal events keep therefore holds along every run.
-/

namespace Aevros

open Runs Function List

def ConnEvent.claimed : ConnEvent → Option Tuple
  | .syn u .. | .cookie u .. | .connect u .. => some u
  | .listen port protocol => some (.listener port protocol)
  | _ => none

def tableStep (t : Slot → Conn) (a : Slot × ConnEvent) : Slot → Conn :=
  update t a.1 ((t a.1).step a.2)

/-- The event is legal for its row, and if it claims the slot then LockBox has granted it. -/
structure Allowed (t : Slot → Conn) (c : Slot) (e : ConnEvent) : Prop where
  legal : e.Legal (t c)
  granted : ∀ u ∈ e.claimed, ∃ b, lockboxClaim (fun i => (t i).box) u = .ok (c, b)

namespace Net

def eventsOf (c : Slot) (as : List (Slot × ConnEvent)) : List ConnEvent :=
  (as.filter fun a => a.1 = c).map Prod.snd

/-- The rows changed by allowed events with property `P`, and the journal has them all. -/
def Extends (P : ConnEvent → Prop) (s s' : Net) : Prop :=
  ∃ as, s'.journal = s.journal ++ as ∧ s'.conns = run tableStep s.conns as ∧
    Along tableStep (fun t a => Allowed t a.1 a.2 ∧ P a.2) s.conns as

/-- The events other than the end of TIME_WAIT. -/
@[simp] def NotExpire (e : ConnEvent) : Prop := e ≠ .expire

variable {P Q : ConnEvent → Prop} {s s' s'' : Net} {c : Slot} {e : ConnEvent}

theorem eventsOf_cons_self (c : Slot) (e : ConnEvent) (as : List (Slot × ConnEvent)) :
    eventsOf c ((c, e) :: as) = e :: eventsOf c as := by
  simp [eventsOf]

theorem eventsOf_cons_of_ne {d : Slot} (h : d ≠ c) (e : ConnEvent)
    (as : List (Slot × ConnEvent)) : eventsOf c ((d, e) :: as) = eventsOf c as := by
  simp [eventsOf, h]

theorem run_tableStep_slot (t : Slot → Conn) (as : List (Slot × ConnEvent)) (c : Slot) :
    run tableStep t as c = run Conn.step (t c) (eventsOf c as) := by
  induction as generalizing t with
  | nil => rfl
  | cons a as ih =>
    obtain ⟨d, e⟩ := a
    rw [run_cons, ih]
    by_cases hd : d = c
    · subst hd
      rw [eventsOf_cons_self, run_cons, tableStep, update_self]
    · rw [eventsOf_cons_of_ne hd, tableStep, update_of_ne (Ne.symm hd)]

theorem along_tableStep_slot {R : Conn → ConnEvent → Prop} {t : Slot → Conn}
    {as : List (Slot × ConnEvent)} (h : Along tableStep (fun t a => R (t a.1) a.2) t as)
    (c : Slot) : Along Conn.step R (t c) (eventsOf c as) := by
  induction as generalizing t with
  | nil => trivial
  | cons a as ih =>
    obtain ⟨d, e⟩ := a
    have hrest := ih h.2
    by_cases hd : d = c
    · subst hd
      rw [tableStep, update_self] at hrest
      rw [eventsOf_cons_self]
      exact ⟨h.1, hrest⟩
    · rw [tableStep, update_of_ne (Ne.symm hd)] at hrest
      rw [eventsOf_cons_of_ne hd]
      exact hrest

namespace Extends

theorem of_eq (hc : s'.conns = s.conns) (hj : s'.journal = s.journal) : s.Extends P s' :=
  ⟨[], by simp [hj], hc, trivial⟩

theorem refl (s : Net) : s.Extends P s := .of_eq rfl rfl

theorem trans (h : s.Extends P s') (h' : s'.Extends P s'') : s.Extends P s'' := by
  obtain ⟨as, hj, hc, ha⟩ := h
  obtain ⟨bs, hj', hc', hb⟩ := h'
  refine ⟨as ++ bs, by rw [hj', hj, append_assoc], ?_, ?_⟩
  · rw [run_append, ← hc, hc']
  · rw [along_append, ← hc]
    exact ⟨ha, hb⟩

theorem allowed (h : Allowed s.conns c e) (hp : P e) : s.Extends P (s.act c e) :=
  ⟨[(c, e)], rfl, rfl, ⟨h, hp⟩, trivial⟩

theorem act (h : e.Legal (s.conns c)) (hn : e.claimed = none) (hp : P e) :
    s.Extends P (s.act c e) :=
  .allowed ⟨h, by simp [hn]⟩ hp

theorem claim {u : Tuple} {b : LockBox} (hb : lockboxClaim s.lockbox u = .ok (c, b))
    (h : e.Legal (s.conns c)) (hu : e.claimed = some u) (hp : P e) : s.Extends P (s.act c e) := by
  refine .allowed ⟨h, fun v hv => ?_⟩ hp
  cases Option.mem_unique hv hu
  exact ⟨b, hb⟩

theorem office (h : s.Extends P s') (o : Office) : s.Extends P { s' with office := o } :=
  h.trans (.of_eq rfl rfl)

theorem foldl {ι : Type*} {f : Net → ι → Net} (hf : ∀ (s : Net) i, s.Extends P (f s i))
    (s : Net) (is : List ι) : s.Extends P (is.foldl f s) := by
  induction is generalizing s with
  | nil => exact .refl s
  | cons i is ih => exact (hf s i).trans (ih _)

theorem mono (hPQ : ∀ e, P e → Q e) (h : s.Extends P s') : s.Extends Q s' := by
  obtain ⟨as, hj, hc, ha⟩ := h
  refine ⟨as, hj, hc, ?_⟩
  exact ha.imp (I := fun _ => True) (fun t a _ ha => ⟨trivial, ha.1, hPQ a.2 ha.2⟩) trivial

end Extends

theorem extends_resend (s : Net) (frame : Option Frame) : s.Extends P (s.resend frame) := by
  cases frame <;> exact .of_eq rfl rfl

theorem claim_free {u : Tuple} {t : LockBox} (h : lockboxClaim s.lockbox u = .ok (c, t)) :
    (s.conns c).box.inUse = false := by
  simpa [lockbox] using Fin.eq_true_of_find?_eq_some (lockboxClaim_ok h).2.2.1

section

variable (s : Net)

theorem extends_handleSyn (g : Segment) (src dst : Ip4) :
    s.Extends NotExpire (s.handleSyn g src dst) := by
  unfold handleSyn
  dsimp only
  split_ifs
  · exact .of_eq rfl rfl
  · exact .of_eq rfl rfl
  · split
    · exact .of_eq rfl rfl
    · rename_i hc
      refine Extends.office (.claim hc ?_ rfl (by simp)) _
      exact ⟨claim_free hc, rfl⟩

theorem extends_handleCookie (g : Segment) (src dst : Ip4)
    (hd : g.data.length < 65536) : s.Extends NotExpire (s.handleCookie g src dst) := by
  unfold handleCookie
  dsimp only
  split_ifs with ha
  · exact .refl s
  · exact .of_eq rfl rfl
  · split
    · exact .of_eq rfl rfl
    · rename_i hc
      have ho : s.Extends NotExpire { s with office := ensureSecret s.office } := .of_eq rfl rfl
      refine ho.trans (Extends.trans (.claim hc ?_ rfl (by simp)) (extends_resend _ _))
      exact ⟨claim_free hc, rfl, by simpa using ha, hd⟩

theorem extends_handle (g : Segment) (src dst : Ip4) (hd : g.data.length < 65536) :
    s.Extends NotExpire (s.handle g src dst) := by
  unfold handle
  split
  · split_ifs
    · exact extends_handleSyn s g src dst
    · exact extends_handleCookie s g src dst hd
  · rename_i c hc
    split_ifs with hst
    · refine .act ?_ rfl (by simp)
      exact ⟨(lockboxFindConnection_some hc).1, hst⟩
    · exact extends_handleSyn s g src dst
    · refine (Extends.act ?_ rfl (by simp)).trans (extends_resend _ _)
      exact ⟨(lockboxFindConnection_some hc).1, hst, hd⟩

theorem extends_conversationHandle (p : Packet) (src dst : Ip4) :
    s.Extends NotExpire (conversationHandle s p src dst) := by
  unfold conversationHandle
  split_ifs
  · exact extends_handle s _ src dst (length_decode_data p)
  · exact .refl s

theorem extends_switchboardConnect (ip : Ip4) (port : Port) (me : Identity) :
    s.Extends NotExpire (switchboardConnect s ip port me).2 := by
  unfold switchboardConnect
  have hp : s.Extends NotExpire (pickEphemeralPort s).2 := .of_eq rfl rfl
  generalize pickEphemeralPort s = r at hp ⊢
  obtain ⟨_ | localPort, s'⟩ := r
  · exact hp
  · refine hp.trans ?_
    dsimp only
    split
    · exact .refl _
    · rename_i hc
      refine Extends.office (.claim hc ?_ rfl (by simp)) _
      exact ⟨claim_free hc, rfl⟩

theorem extends_switchboardBind (port : Port) (protocol : Byte) :
    s.Extends NotExpire (switchboardBind s port protocol).2 := by
  unfold switchboardBind
  split
  · exact .refl s
  · rename_i hc
    refine .claim hc ?_ rfl (by simp)
    exact claim_free hc

theorem extends_switchboardAccept (port : Port) :
    s.Extends NotExpire (switchboardAccept s port).2 := by
  unfold switchboardAccept
  split
  · exact .refl s
  · rename_i c hc
    have h := Fin.eq_true_of_find?_eq_some hc
    simp only [Bool.and_eq_true, decide_eq_true_eq] at h
    refine .act ?_ rfl (by simp)
    exact ⟨h.1.1.1.1, h.2⟩

theorem extends_findFreeSlot : s.Extends NotExpire (findFreeSlot s).2 := by
  unfold findFreeSlot
  split <;> exact .of_eq rfl rfl

theorem extends_frontdoorSocket (type : ℤ) : s.Extends NotExpire (frontdoorSocket s type).2 := by
  unfold frontdoorSocket
  split
  · exact .refl s
  · have h := extends_findFreeSlot s
    generalize findFreeSlot s = r at h ⊢
    obtain ⟨_ | i, s'⟩ := r
    · exact h
    · exact h.trans (.of_eq rfl rfl)

theorem extends_frontdoorBind (fd : ℤ) (port : Port) :
    s.Extends NotExpire (frontdoorBind s fd port).2 := by
  have h := extends_switchboardBind s port
  unfold frontdoorBind
  split
  · exact .refl s
  · split
    · split_ifs
      · exact .refl s
      · exact .of_eq rfl rfl
    · specialize h 6
      generalize switchboardBind s port 6 = r at h ⊢
      obtain ⟨_ | _, s'⟩ := r
      · exact h
      · exact h.trans (.of_eq rfl rfl)
    · specialize h 17
      generalize switchboardBind s port 17 = r at h ⊢
      obtain ⟨_ | _, s'⟩ := r
      · exact h
      · exact h.trans (.of_eq rfl rfl)

theorem extends_frontdoorConnect (fd : ℤ) (ip : Ip4) (port : Port) :
    s.Extends NotExpire (frontdoorConnect s fd ip port).2 := by
  unfold frontdoorConnect
  split
  · exact .refl s
  · split_ifs
    · exact .refl s
    · have h := extends_switchboardConnect s ip port (getIdentity s.office)
      generalize switchboardConnect s ip port (getIdentity s.office) = r at h ⊢
      obtain ⟨_ | c, s'⟩ := r
      · exact h
      · exact h.trans (.of_eq rfl rfl)

theorem extends_frontdoorConnect6 (fd : ℤ) : s.Extends NotExpire (frontdoorConnect6 s fd).2 := by
  unfold frontdoorConnect6
  split
  · exact .refl s
  · split_ifs
    · exact .refl s
    · split <;> exact .of_eq rfl rfl

end

theorem extends_acceptInto (h : s.Extends NotExpire s') (f : Fin frontdoorMaxSockets → Net → Net)
    (hf : ∀ j (s : Net), s.Extends NotExpire (f j s)) :
    s.Extends NotExpire (match findFreeSlot s' with
      | (none, s) => ((-1 : ℤ), s)
      | (some j, s) => ((j : ℕ), f j s)).2 := by
  have h' := h.trans (extends_findFreeSlot s')
  generalize findFreeSlot s' = r at h' ⊢
  obtain ⟨_ | j, s''⟩ := r
  · exact h'
  · exact h'.trans (hf j s'')

section

variable (s : Net)

section

variable (fd : ℤ)

theorem extends_frontdoorAccept : s.Extends NotExpire (frontdoorAccept s fd).2 := by
  unfold frontdoorAccept
  split
  · exact .refl s
  · rename_i i hi
    split_ifs
    · exact .refl s
    · split
      · exact .refl s
      · exact extends_acceptInto (.refl s) _ fun j s => .of_eq rfl rfl
    · have h := extends_switchboardAccept s (s.sockets i).localPort
      generalize switchboardAccept s (s.sockets i).localPort = r at h ⊢
      obtain ⟨_ | c, s'⟩ := r
      · exact h
      · exact extends_acceptInto h _ fun j s => .of_eq rfl rfl

theorem extends_frontdoorSend (buf : List Byte) :
    s.Extends NotExpire (frontdoorSend s fd buf).2 := by
  unfold frontdoorSend
  split
  · exact .refl s
  · split_ifs
    · exact .refl s
    · split
      · split <;> exact .refl s
      · exact .refl s
      · split
        · exact .refl s
        · refine Extends.office (.act ?_ rfl (by simp)) _
          trivial

theorem extends_frontdoorRecv (maxLen : ℕ) : s.Extends NotExpire (frontdoorRecv s fd maxLen).2 := by
  unfold frontdoorRecv
  split
  · exact .refl s
  · split_ifs
    · exact .refl s
    · split
      · exact .refl s
      · exact .refl s
      · split
        · exact .refl s
        · refine Extends.office (.act ?_ rfl (by simp)) _
          trivial

theorem extends_frontdoorSendtoBind : s.Extends NotExpire (frontdoorSendtoBind s fd) := by
  unfold frontdoorSendtoBind
  split
  · exact .refl s
  · split_ifs
    · exact .refl s
    · have hp : s.Extends NotExpire (pickUdpEphemeral s).2 := .of_eq rfl rfl
      generalize pickUdpEphemeral s = r at hp ⊢
      obtain ⟨_ | port, s'⟩ := r
      · exact hp
      · have h := hp.trans (extends_switchboardBind s' port 17)
        dsimp only at h ⊢
        generalize switchboardBind s' port 17 = r at h ⊢
        obtain ⟨_ | _, s''⟩ := r
        · exact h
        · exact h.trans (.of_eq rfl rfl)

theorem extends_trySendFin (i : Fin frontdoorMaxSockets) :
    s.Extends NotExpire (trySendFin s i).2 := by
  unfold trySendFin
  dsimp only
  split_ifs
  · exact .refl s
  · split
    · exact .refl s
    · split <;> exact .refl s
    · split
      · exact .refl s
      · split_ifs
        · refine Extends.office (.act ?_ rfl (by simp)) _
          trivial
        · exact .refl s

theorem extends_frontdoorClose : s.Extends NotExpire (frontdoorClose s fd).2 := by
  unfold frontdoorClose
  split
  · exact .refl s
  · rename_i i hi
    have h := extends_trySendFin s i
    generalize trySendFin s i = r at h ⊢
    obtain ⟨_ | _, s'⟩ := r <;> exact h.trans (.of_eq rfl rfl)

end

theorem extends_frontdoorTickSocket (i : Fin frontdoorMaxSockets) :
    s.Extends NotExpire (frontdoorTickSocket s i) := by
  unfold frontdoorTickSocket
  split_ifs
  · have h := extends_trySendFin s i
    generalize trySendFin s i = r at h ⊢
    obtain ⟨_ | _, s'⟩ := r
    · exact h
    · exact h.trans (.of_eq rfl rfl)
  · exact .refl s

theorem extends_schedulerTickSlot (c : Slot) : s.Extends NotExpire (schedulerTickSlot s c) := by
  unfold schedulerTickSlot
  split_ifs
  · exact .refl s
  · refine (Extends.act ?_ rfl (by simp)).trans (extends_resend _ _)
    trivial

theorem extends_step_of_ne {e : Event} (he : e ≠ .rapportTick) :
    s.Extends NotExpire (s.step e) := by
  cases e with
  | segment p src dst => exact extends_conversationHandle s p src dst
  | socket type => exact extends_frontdoorSocket s type
  | bind fd port => exact extends_frontdoorBind s fd port
  | connect fd ip port => exact extends_frontdoorConnect s fd ip port
  | connect6 fd => exact extends_frontdoorConnect6 s fd
  | accept fd => exact extends_frontdoorAccept s fd
  | send fd buf => exact extends_frontdoorSend s fd buf
  | recv fd maxLen => exact extends_frontdoorRecv s fd maxLen
  | sendto fd => exact extends_frontdoorSendtoBind s fd
  | close fd => exact extends_frontdoorClose s fd
  | rapportTick => exact absurd rfl he
  | schedulerTick => exact .foldl extends_schedulerTickSlot s _
  | foyerTick => exact .of_eq rfl rfl
  | frontdoorTick => exact .foldl extends_frontdoorTickSocket s _
  | listen port protocol => exact extends_switchboardBind s port protocol
  | clock ticks => exact .of_eq rfl rfl
  | outside o => exact .of_eq rfl rfl

theorem extends_rapportTickSlot (c : Slot) : s.Extends (fun _ => True) (rapportTickSlot s c) := by
  unfold rapportTickSlot timeWaitExpired
  split_ifs with h
  · refine .act ?_ rfl trivial
    simp only [Bool.and_eq_true, decide_eq_true_eq] at h
    exact h.1
  · exact .refl s

theorem extends_step (e : Event) : s.Extends (fun _ => True) (s.step e) := by
  by_cases he : e = .rapportTick
  · subst he
    exact .foldl extends_rapportTickSlot s _
  · exact (extends_step_of_ne s he).mono fun _ _ => trivial

theorem extends_run (es : List Event) : s.Extends (fun _ => True) (run step s es) :=
  .foldl extends_step s es

end

theorem Extends.slot (h : s.Extends P s') (c : Slot) :
    ∃ es, s'.history c = s.history c ++ es ∧ s'.conns c = run Conn.step (s.conns c) es ∧
      Along Conn.step (fun k e => e.Legal k ∧ P e) (s.conns c) es := by
  obtain ⟨as, hj, hc, ha⟩ := h
  refine ⟨eventsOf c as, ?_, ?_, ?_⟩
  · simp [history, hj, eventsOf]
  · rw [hc, run_tableStep_slot]
  · refine along_tableStep_slot ?_ c
    exact ha.imp (I := fun _ => True) (fun t a _ ha => ⟨trivial, ha.1.legal, ha.2⟩) trivial

theorem Extends.preserves {J : Conn → Prop} (hJ : ∀ k e, J k → e.Legal k → P e → J (k.step e))
    (h : s.Extends P s') (hs : J (s.conns c)) : J (s'.conns c) := by
  obtain ⟨es, -, hc, hes⟩ := h.slot c
  rw [hc]
  exact hes.run_invariant (fun k e hk he => hJ k e hk he.1 he.2) hs

theorem Extends.history_run {o : Office} (h : (boot o).Extends P s) (c : Slot) :
    s.conns c = run Conn.step {} (s.history c) ∧
      Along Conn.step (fun k e => e.Legal k) {} (s.history c) := by
  obtain ⟨es, hh, hc, hes⟩ := h.slot c
  rw [show s.history c = es from hh]
  refine ⟨hc, ?_⟩
  exact hes.imp (I := fun _ => True) (fun k e _ he => ⟨trivial, he.1⟩) trivial

theorem history_run (o : Office) (es : List Event) (c : Slot) :
    let s := run step (boot o) es
    s.conns c = run Conn.step {} (s.history c) ∧
      Along Conn.step (fun k e => e.Legal k) {} (s.history c) :=
  (extends_run (boot o) es).history_run c

theorem rapportTick_conns (s : Net) (c : Slot) : (rapportTick s).conns c =
      if timeWaitExpired s.office.ticks (s.conns c) then rapportExpire (s.conns c)
      else s.conns c := by
  have hslot : ∀ (s : Net) d, (rapportTickSlot s d).office = s.office ∧
      (rapportTickSlot s d).conns c = if c = d ∧ timeWaitExpired s.office.ticks (s.conns c) then
        rapportExpire (s.conns c) else s.conns c := by
    intro s d
    unfold rapportTickSlot
    by_cases hcd : c = d
    · subst hcd
      split_ifs <;> simp_all [act, Conn.step]
    · split_ifs <;> simp_all [act]
  have hfold : ∀ (ds : List Slot) (s : Net), ds.Nodup → (ds.foldl rapportTickSlot s).conns c =
        if c ∈ ds ∧ timeWaitExpired s.office.ticks (s.conns c) then rapportExpire (s.conns c)
        else s.conns c := by
    intro ds
    induction ds with
    | nil => simp
    | cons d ds ih =>
      intro s hd
      obtain ⟨hnot, hnd⟩ := nodup_cons.mp hd
      rw [foldl_cons, ih _ hnd, (hslot s d).1, (hslot s d).2]
      by_cases hcd : c = d
      · subst hcd
        simp [hnot]
      · simp [hcd]
  rw [rapportTick, hfold _ s (nodup_finRange _)]
  simp [mem_finRange]

@[simp] theorem resend_conns (s : Net) (frame : Option Frame) :
    (s.resend frame).conns = s.conns := by
  cases frame <;> rfl

theorem act_conns_of_ne {d : Slot} (h : c ≠ d) (e : ConnEvent) : (s.act d e).conns c = s.conns c :=
  update_of_ne h _ _

@[simp] theorem act_conns_self (s : Net) (c : Slot) (e : ConnEvent) :
    (s.act c e).conns c = (s.conns c).step e :=
  update_self c _ _

section

variable (hu : (s.conns c).box.inUse = true)

include hu

theorem ne_of_claim {d : Slot} {u : Tuple} {t : LockBox}
    (h : lockboxClaim s.lockbox u = .ok (d, t)) :
    c ≠ d := by
  rintro rfl
  simp [claim_free h] at hu

theorem handleSyn_conns (g : Segment) (src dst : Ip4) :
    (s.handleSyn g src dst).conns c = s.conns c := by
  unfold handleSyn
  dsimp only
  split_ifs
  · rfl
  · rfl
  · split
    · rfl
    · rename_i hc
      exact act_conns_of_ne (ne_of_claim hu hc) _

theorem handleCookie_conns (g : Segment) (src dst : Ip4) :
    (s.handleCookie g src dst).conns c = s.conns c := by
  unfold handleCookie
  dsimp only
  split_ifs
  · rfl
  · rfl
  · split
    · rfl
    · rename_i hc
      rw [resend_conns]
      exact act_conns_of_ne (ne_of_claim hu hc) _

theorem handle_conns (g : Segment) (src dst : Ip4) :
    (s.handle g src dst).conns c = s.conns c ∨ g.tuple src = (s.conns c).box.tuple ∧
      (s.handle g src dst).conns c = if (s.conns c).rapport.status = .synSent then
        conversationAnswer (s.conns c) g
      else (conversationReceive s.office.ticks (s.conns c) g).2 := by
  unfold handle
  split
  · left
    split
    · exact handleSyn_conns hu g src dst
    · exact handleCookie_conns hu g src dst
  · rename_i d hd
    have htuple : g.tuple src = (s.conns d).box.tuple := (lockboxFindConnection_some hd).2.symm
    by_cases hcd : c = d
    · subst hcd
      split_ifs
      · exact .inr ⟨htuple, act_conns_self s c _⟩
      · exact .inl (handleSyn_conns hu g src dst)
      · rw [handleSegment, resend_conns]
        exact .inr ⟨htuple, act_conns_self s c _⟩
    · left
      split
      · exact act_conns_of_ne hcd _
      · split
        · exact handleSyn_conns hu g src dst
        · rw [handleSegment, resend_conns]
          exact act_conns_of_ne hcd _

theorem conversationHandle_conns (p : Packet) (src dst : Ip4) :
    (conversationHandle s p src dst).conns c = s.conns c ∨
      (decode p.bytes).tuple src = (s.conns c).box.tuple ∧
      (conversationHandle s p src dst).conns c = if (s.conns c).rapport.status = .synSent then
        conversationAnswer (s.conns c) (decode p.bytes)
      else (conversationReceive s.office.ticks (s.conns c) (decode p.bytes)).2 := by
  unfold conversationHandle
  split
  · exact handle_conns hu _ src dst
  · exact .inl rfl

end

end Net

end Aevros
