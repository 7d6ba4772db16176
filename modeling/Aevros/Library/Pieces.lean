import Mathlib.Tactic

/-! # Pieces of a list

A list is cut into pieces, all but the last a whole number of units long. A receiver has the whole
list if every unit is marked and the last piece is there.
-/

namespace Pieces

open List

variable {α : Type*} {m : ℕ}

theorem lt_units_iff (hm : 0 < m) {u n : ℕ} : u < (n + (m - 1)) / m ↔ m * u < n := by
  rw [Nat.lt_iff_add_one_le, Nat.le_div_iff_mul_le hm, Nat.add_mul, Nat.mul_comm]
  omega

/-- A run of elements from a position on. The last piece of a list is marked. -/
structure Piece (α : Type*) where
  start : ℕ
  data : List α
  last : Bool

namespace Piece

def stop (p : Piece α) : ℕ := p.start + p.data.length

def Covers (m : ℕ) (p : Piece α) (u : ℕ) : Prop := p.start / m ≤ u ∧ u < (p.stop + (m - 1)) / m

theorem covers_iff (hm : 0 < m) {p : Piece α} (hp : m ∣ p.start) {u : ℕ} :
    p.Covers m u ↔ p.start ≤ m * u ∧ m * u < p.stop := by
  obtain ⟨k, hk⟩ := hp
  rw [Covers, lt_units_iff hm, hk, Nat.mul_div_cancel_left k hm, Nat.mul_le_mul_left_iff hm]

def Has (p : Piece α) (j : ℕ) : Prop := p.start ≤ j ∧ j < p.stop

instance (p : Piece α) (j : ℕ) : Decidable (p.Has j) := inferInstanceAs (Decidable (_ ∧ _))

theorem Has.covers (hm : 0 < m) {p : Piece α} (hp : m ∣ p.start) {j : ℕ} (h : p.Has j) :
    p.Covers m (j / m) := by
  rw [covers_iff hm hp]
  constructor
  · obtain ⟨k, hk⟩ := hp
    have hle : k * m ≤ j := (Nat.mul_comm k m).trans_le (hk ▸ h.1)
    rw [hk]
    exact Nat.mul_le_mul_left m ((Nat.le_div_iff_mul_le hm).mpr hle)
  · exact (Nat.mul_div_le j m).trans_lt h.2

theorem Covers.has (hm : 0 < m) {p : Piece α} (hp : m ∣ p.start) {j : ℕ} (h : p.Covers m (j / m))
    (hj : p.last = true → j < p.stop) (hdvd : p.last = false → m ∣ p.data.length) : p.Has j := by
  obtain ⟨hle, hlt⟩ := (covers_iff hm hp).mp h
  refine ⟨hle.trans (Nat.mul_div_le j m), ?_⟩
  cases hl : p.last with
  | true => exact hj hl
  | false =>
    obtain ⟨k, hk⟩ : m ∣ p.stop := hp.add (hdvd hl)
    rw [hk] at hlt ⊢
    rw [Nat.mul_comm]
    exact (Nat.div_lt_iff_lt_mul hm).mp (Nat.lt_of_mul_lt_mul_left hlt)

def Needed (p : Piece α) : Prop := p.data ≠ [] ∨ p.last = true

theorem needed_of_lt {p : Piece α} (h : p.start < p.stop) : p.Needed := by
  refine .inl fun hnil => ?_
  rw [stop, hnil, length_nil] at h
  omega

/-- The pieces share no unit, and only one of them is the last. -/
def Apart (m : ℕ) (p q : Piece α) : Prop :=
  (∀ u, p.Covers m u → ¬q.Covers m u) ∧ ¬(p.last = true ∧ q.last = true)

theorem Apart.symm {p q : Piece α} (h : Apart m p q) : Apart m q p :=
  ⟨fun u hq hp => h.1 u hp hq, fun hl => h.2 hl.symm⟩

end Piece

/-- The list is cut at the position into the pieces, in order. -/
inductive Cut (m : ℕ) : ℕ → List α → List (Piece α) → Prop
  | last (s : ℕ) (xs : List α) : Cut m s xs [⟨s, xs, true⟩]
  | more {s : ℕ} {xs ys : List α} {ps : List (Piece α)} (hm : m ∣ xs.length)
      (h : Cut m (s + xs.length) ys ps) : Cut m s (xs ++ ys) (⟨s, xs, false⟩ :: ps)

namespace Cut

variable {m s : ℕ} {xs : List α} {ps ds rs : List (Piece α)} {p : Piece α}

section

variable (h : Cut m s xs ps)

include h

theorem le_start (hp : p ∈ ps) : s ≤ p.start := by
  induction h with
  | last s xs => simp_all
  | more _ _ ih =>
    obtain rfl | hp := mem_cons.mp hp
    · exact le_rfl
    · exact (Nat.le_add_right _ _).trans (ih hp)

theorem stop_le (hp : p ∈ ps) : p.stop ≤ s + xs.length := by
  induction h with
  | last s xs =>
    obtain rfl := mem_singleton.mp hp
    exact le_rfl
  | more _ _ ih =>
    rw [length_append]
    obtain rfl | hp := mem_cons.mp hp
    · simp [Piece.stop]
    · have := ih hp
      omega

theorem stop_of_last (hp : p ∈ ps) (hl : p.last = true) : p.stop = s + xs.length := by
  induction h with
  | last s xs =>
    obtain rfl := mem_singleton.mp hp
    rfl
  | more _ _ ih =>
    obtain rfl | hp := mem_cons.mp hp
    · cases hl
    · rw [ih hp, length_append, Nat.add_assoc]

theorem exists_last : ∃ p ∈ ps, p.last = true := by
  induction h with
  | last s xs => exact ⟨_, mem_singleton_self _, rfl⟩
  | more _ _ ih =>
    obtain ⟨p, hp, hl⟩ := ih
    exact ⟨p, mem_cons_of_mem _ hp, hl⟩

theorem dvd_start (hs : m ∣ s) (hp : p ∈ ps) : m ∣ p.start := by
  induction h with
  | last s xs =>
    obtain rfl := mem_singleton.mp hp
    exact hs
  | more hm _ ih =>
    obtain rfl | hp := mem_cons.mp hp
    · exact hs
    · exact ih (hs.add hm) hp

theorem dvd_length (hp : p ∈ ps) (hl : p.last = false) : m ∣ p.data.length := by
  induction h with
  | last s xs =>
    obtain rfl := mem_singleton.mp hp
    cases hl
  | more hm _ ih =>
    obtain rfl | hp := mem_cons.mp hp
    · exact hm
    · exact ih hp

theorem getElem?_data (hp : p ∈ ps) {j : ℕ} (hj : j < p.data.length) :
    p.data[j]? = xs[p.start - s + j]? := by
  induction h with
  | last s xs =>
    obtain rfl := mem_singleton.mp hp
    simp
  | @more s xs ys ps _ h ih =>
    obtain rfl | hp := mem_cons.mp hp
    · rw [Nat.sub_self, Nat.zero_add, getElem?_append_left hj]
    · have hle := h.le_start hp
      rw [ih hp, getElem?_append_right (by omega)]
      congr 1
      omega

theorem exists_covering {j : ℕ} (hj : j < xs.length) :
    ∃ p ∈ ps, p.start ≤ s + j ∧ s + j < p.stop := by
  induction h generalizing j with
  | last s xs => exact ⟨_, mem_singleton_self _, by simp, by simpa [Piece.stop] using hj⟩
  | @more s xs ys ps _ h ih =>
    by_cases hx : j < xs.length
    · exact ⟨_, mem_cons_self, by simp, by simpa [Piece.stop] using hx⟩
    · rw [length_append] at hj
      obtain ⟨p, hp, hle, hlt⟩ := ih (j := j - xs.length) (by omega)
      exact ⟨p, mem_cons_of_mem _ hp, by omega, by omega⟩

end

theorem pairwise_apart (hm : 0 < m) (h : Cut m s xs ps) (hs : m ∣ s) :
    ps.Pairwise (Piece.Apart m) := by
  induction h with
  | last s xs => exact pairwise_singleton _ _
  | @more s xs ys ps hdvd h ih =>
    refine pairwise_cons.mpr ⟨?_, ih (hs.add hdvd)⟩
    intro q hq
    refine ⟨?_, fun hl => Bool.false_ne_true hl.1⟩
    -- the first piece ends with a unit, and the others start after it
    intro u hu hv
    have hstop : (s + xs.length + (m - 1)) / m = (s + xs.length) / m := by
      rw [Nat.add_div_of_dvd_right (hs.add hdvd), Nat.div_eq_of_lt (Nat.sub_one_lt hm.ne'),
        Nat.add_zero]
    have hlt : u < (s + xs.length) / m := hstop ▸ hu.2
    have hle := Nat.div_le_div_right (c := m) (h.le_start hq)
    exact absurd (hlt.trans_le hle) (Nat.not_lt.mpr hv.1)

theorem complete_iff (hm : 0 < m) (h : Cut m 0 xs ps) (hperm : (ds ++ rs).Perm ps) :
    ((∃ p ∈ ds, p.last = true) ∧
      ∀ u < (xs.length + (m - 1)) / m, ∃ p ∈ ds, p.Covers m u) ↔ ∀ p ∈ rs, ¬p.Needed := by
  have hps : ∀ p, p ∈ ps ↔ p ∈ ds ∨ p ∈ rs := fun p => by rw [← hperm.mem_iff, mem_append]
  have hcov : ∀ p ∈ ps, ∀ u, p.Covers m u ↔ p.start ≤ m * u ∧ m * u < p.stop :=
    fun p hp u => Piece.covers_iff hm (h.dvd_start (dvd_zero m) hp)
  constructor
  · rintro ⟨⟨l, hl, hlast⟩, hall⟩ p hp hneed
    have hpp := (hps p).mpr (.inr hp)
    have hapart : ∀ q ∈ ds, Piece.Apart m q p := by
      have hpair := (hperm.pairwise_iff Piece.Apart.symm).mpr (h.pairwise_apart hm (dvd_zero m))
      exact fun q hq => (pairwise_append.mp hpair).2.2 q hq p hp
    obtain hne | hplast := hneed
    · obtain ⟨k, hk⟩ := h.dvd_start (dvd_zero m) hpp
      have hlt : p.start < p.stop := Nat.lt_add_of_pos_right (length_pos_iff.mpr hne)
      have hle := h.stop_le hpp
      obtain ⟨q, hq, hqk⟩ := hall k ((lt_units_iff hm).mpr (by omega))
      exact (hapart q hq).1 k hqk ((hcov p hpp k).mpr ⟨hk.le, hk ▸ hlt⟩)
    · exact (hapart l hl).2 ⟨hlast, hplast⟩
  · intro hrs
    have hds : ∀ p ∈ ps, p.Needed → p ∈ ds :=
      fun p hp hneed => ((hps p).mp hp).resolve_right fun hr => hrs p hr hneed
    constructor
    · obtain ⟨p, hp, hl⟩ := h.exists_last
      exact ⟨p, hds p hp (.inr hl), hl⟩
    · intro u hu
      obtain ⟨p, hp, hle, hlt⟩ := h.exists_covering ((lt_units_iff hm).mp hu)
      rw [Nat.zero_add] at hle hlt
      exact ⟨p, hds p hp (Piece.needed_of_lt (hle.trans_lt hlt)), (hcov p hp u).mpr ⟨hle, hlt⟩⟩

end Cut

end Pieces
