import Aevros.Library.Runs
import Aevros.Library.Table
import Aevros.Office.Admission

/-! # Port scans

An entry of Sentry never remembers more than one port, so no source is ever banned.
-/

namespace Aevros

open Function

structure Gate where
  clock : ℕ := 0
  sentry : Sentry := fun _ => {}
  guestlist : GuestList := fun _ => {}
  seen : List (ℕ × Ip4 × Port) := []

inductive GateEvent
  | observe (src : Ip4) (dstPort : Port)
  | clock (ticks : ℕ)
  | rules (l : GuestList)

namespace Gate

variable (s : Gate) (src : Ip4) (dstPort : Port)

def ticks : Word := BitVec.ofNat 32 s.clock

def observed : Bool × Sentry × GuestList :=
  sentryObserve s.ticks s.sentry s.guestlist src dstPort

def step (s : Gate) : GateEvent → Gate
  | .observe src dstPort =>
    { s with
      sentry := (s.observed src dstPort).2.1
      guestlist := (s.observed src dstPort).2.2
      seen := s.seen ++ [(s.clock, src, dstPort)] }
  | .clock ticks => { s with clock := s.clock + ticks }
  | .rules l => { s with guestlist := l }

def recent : List Port :=
  (s.seen.filter fun o => o.2.1 = src && s.clock - o.1 < 200).map fun o => o.2.2

/-- The port is new, and with it the source was observed on six ports within 200 ticks. -/
def Scans : Prop :=
  (∃ i, (s.sentry i).inUse = true ∧ (s.sentry i).ip = src) ∧ dstPort ∉ s.recent src ∧
    6 ≤ (insert dstPort (s.recent src).toFinset).card

/-- The observation answers 1 and puts the source on the deny list for 3000 ticks. -/
def Bans : Prop :=
  (s.observed src dstPort).1 = true ∧ ∃ i, (s.observed src dstPort).2.2.findEntry src = some i ∧
    ((s.observed src dstPort).2.2 i).action = .denied ∧
    ((s.observed src dstPort).2.2 i).expiresAtTick = s.ticks + 3000

instance : Decidable (s.Scans src dstPort) := inferInstanceAs (Decidable (_ ∧ _ ∧ _))

instance : Decidable (s.Bans src dstPort) := inferInstanceAs (Decidable (_ ∧ ∃ _, _))

end Gate

def AtMostOne (hits : Fin sentryPortHistory → PortHit) : Prop :=
  ∀ i j, (hits i).inUse = true → (hits j).inUse = true → i = j

variable {hits : Fin sentryPortHistory → PortHit}

section

variable (h : AtMostOne hits)

include h

theorem AtMostOne.mono {hits' : Fin sentryPortHistory → PortHit}
    (hu : ∀ i, (hits' i).inUse = true → (hits i).inUse = true) : AtMostOne hits' :=
  fun i j hi hj => h i j (hu i hi) (hu j hj)

theorem AtMostOne.refresh (i : Fin sentryPortHistory) {x : PortHit}
    (hx : x.inUse = (hits i).inUse) : AtMostOne (update hits i x) := by
  refine h.mono fun j hj => ?_
  by_cases hji : j = i
  · rw [hji, update_self] at hj
    rw [hji, ← hx, hj]
  · rwa [update_of_ne hji] at hj

theorem target_of_inUse {i : Fin sentryPortHistory}
    (hi : (hits i).inUse = true) (is : List (Fin sentryPortHistory)) (hmem : i ∈ is)
    (best : Option (Fin sentryPortHistory)) (oldest : Word) :
    Sentry.target hits is best oldest = some i := by
  induction is generalizing best oldest with
  | nil => simp at hmem
  | cons j is ih =>
    unfold Sentry.target
    by_cases hj : (hits j).inUse = true
    · rw [if_pos hj, h j i hj hi]
    · have hij : i ∈ is := by
        rcases List.mem_cons.mp hmem with rfl | hmem
        · exact absurd hi hj
        · exact hmem
      split_ifs
      · exact ih hij _ _
      · exact ih hij _ _

theorem AtMostOne.overwrite (is : List (Fin sentryPortHistory))
    (hall : ∀ i, i ∈ is) {i : Fin sentryPortHistory} {best : Option (Fin sentryPortHistory)}
    {oldest : Word} (ht : Sentry.target hits is best oldest = some i) (x : PortHit) :
    AtMostOne (update hits i x) := by
  have honly : ∀ j, (update hits i x j).inUse = true → j = i := by
    intro j hj
    by_contra hji
    rw [update_of_ne hji] at hj
    rw [target_of_inUse h hj is (hall j)] at ht
    exact hji (Option.some.inj ht)
  intro a b ha hb
  rw [honly a ha, honly b hb]

theorem AtMostOne.countP_le : (Fin.countP fun i => (hits i).inUse) ≤ 1 := by
  rw [Table.countP_eq_card, Finset.card_le_one]
  intro i hi j hj
  exact h i j (by simpa using hi) (by simpa using hj)

end

/-- No entry remembers more than one port. -/
def Sentry.Forgetful (t : Sentry) : Prop := ∀ e, AtMostOne (t e).hits

theorem Sentry.Forgetful.update {t : Sentry} (h : t.Forgetful) {e : Fin sentryCapacity}
    {x : SentryEntry} (hx : AtMostOne x.hits) : Sentry.Forgetful (update t e x) := by
  intro d
  by_cases hd : d = e
  · rwa [hd, update_self]
  · rw [update_of_ne hd]
    exact h d

theorem Sentry.Forgetful.findOrCreate {t : Sentry} (h : t.Forgetful) (ip : Ip4) :
    (t.findOrCreate ip).2.Forgetful := by
  unfold Sentry.findOrCreate
  split
  · exact h
  · split
    · exact h.update fun i j hi => by simp at hi
    · exact h

theorem Sentry.Forgetful.below {t : Sentry} (h : t.Forgetful) (now : Word) (l : GuestList)
    (src : Ip4) (e : Fin sentryCapacity) (hone : AtMostOne hits) {r : Bool × Sentry × GuestList}
    (hr : r = if sentryDistinctPortThreshold ≤ Fin.countP fun i => (hits i).inUse then
        (true, Function.update t e { t e with hits := hits },
          (guestlistSetTimed now l src .denied sentryBanTicks).2)
      else (false, Function.update t e { t e with hits := hits }, l)) :
    r.1 = false ∧ r.2.1.Forgetful ∧ r.2.2 = l := by
  have hlt : ¬ sentryDistinctPortThreshold ≤ Fin.countP fun i => (hits i).inUse :=
    fun hle => absurd (hle.trans hone.countP_le) (by decide)
  rw [hr, if_neg hlt]
  exact ⟨rfl, h.update hone, rfl⟩

theorem Sentry.Forgetful.observe {t : Sentry} (h : t.Forgetful) (now : Word) (l : GuestList)
    (src : Ip4) (dstPort : Port) :
    (sentryObserve now t l src dstPort).1 = false ∧
      (sentryObserve now t l src dstPort).2.1.Forgetful ∧
      (sentryObserve now t l src dstPort).2.2 = l := by
  have hc := h.findOrCreate src
  unfold sentryObserve
  generalize t.findOrCreate src = r at hc
  obtain ⟨_ | e, t'⟩ := r
  · exact ⟨rfl, hc, rfl⟩
  · dsimp only at hc ⊢
    set live : Fin sentryPortHistory → PortHit := fun i =>
      if ((t' e).hits i).inUse && sentryWindowTicks ≤ now - ((t' e).hits i).tick then
        { (t' e).hits i with inUse := false }
      else (t' e).hits i with hlive
    have hone : AtMostOne live := by
      refine (hc e).mono fun i hi => ?_
      rw [hlive] at hi
      dsimp only at hi
      split_ifs at hi
      exact hi
    split
    · rename_i i hi
      exact ⟨rfl, hc.update (hone.refresh i rfl), rfl⟩
    · cases ht : Sentry.target live (List.finRange sentryPortHistory) none (-1) with
      | some i => exact hc.below now l src e (hone.overwrite _ List.mem_finRange ht _) rfl
      | none => exact hc.below now l src e hone rfl

theorem Gate.forgetful_run (es : List GateEvent) : (Runs.run Gate.step {} es).sentry.Forgetful := by
  refine Runs.run_invariant (I := fun s : Gate => s.sentry.Forgetful) ?_ ?_ es
  · intro s e hs
    cases e with
    | observe src dstPort => exact (hs.observe _ _ _ _).2.1
    | clock ticks => exact hs
    | rules l => exact hs
  · intro e i j hi
    simp at hi

/-- No observation of any run changes the deny list. -/
theorem scan_never_banned (es : List GateEvent) (src : Ip4) (dstPort : Port) :
    let s := Runs.run Gate.step {} es
    (s.observed src dstPort).1 = false ∧ (s.observed src dstPort).2.2 = s.guestlist ∧
      ((s.Scans src dstPort → s.Bans src dstPort) ↔ ¬ s.Scans src dstPort) := by
  intro s
  obtain ⟨hzero, -, hlist⟩ := (Gate.forgetful_run es).observe s.ticks s.guestlist src dstPort
  have hnever : ¬ s.Bans src dstPort := fun hb => Bool.noConfusion (hzero.symm.trans hb.1)
  refine ⟨hzero, hlist, ?_, ?_⟩
  · exact fun h hs => hnever (h hs)
  · exact fun h hs => absurd hs h

theorem six_ports_not_banned :
    let s := Runs.run Gate.step {} ([1, 2, 3, 4, 5].map (GateEvent.observe ⟨10, 0, 2, 2⟩))
    s.Scans ⟨10, 0, 2, 2⟩ 6 ∧ ¬ s.Bans ⟨10, 0, 2, 2⟩ 6 ∧
      guestlistCheck (s.observed ⟨10, 0, 2, 2⟩ 6).2.2 ⟨10, 0, 2, 2⟩ = .noRule := by
  decide +kernel

end Aevros
