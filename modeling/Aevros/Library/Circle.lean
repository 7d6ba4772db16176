import Mathlib.Tactic

/-! # Circular linked lists

The links lead from a head through every node of the list and back to it. Nodes are put in behind
the last one and taken out by linking the node before to the one after.
-/

namespace Circle

open List Function

variable {α : Type*}

/-- From `a` the links lead through `l` to `b`. -/
def Leads (next : α → α) : α → List α → α → Prop
  | a, [], b => a = b
  | a, x :: l, b => a = x ∧ Leads next (next x) l b

/-- The links lead from `h` through `l`, which is not empty, and back to `h`. -/
structure IsCircle (next : α → α) (h : α) (l : List α) : Prop where
  nodup : l.Nodup
  ne_nil : l ≠ []
  leads : Leads next h l h

variable {next : α → α} {a b c h p t x : α} {l l₁ l₂ : List α}

@[simp] theorem leads_nil : Leads next a [] b ↔ a = b := Iff.rfl

@[simp] theorem leads_cons : Leads next a (x :: l) b ↔ a = x ∧ Leads next (next x) l b := Iff.rfl

theorem leads_append : Leads next a (l₁ ++ l₂) c ↔ ∃ b, Leads next a l₁ b ∧ Leads next b l₂ c := by
  induction l₁ generalizing a with
  | nil => simp
  | cons x l₁ ih => simp [ih, and_assoc]

theorem leads_concat : Leads next a (l ++ [p]) b ↔ Leads next a l p ∧ next p = b := by
  simp [leads_append]

theorem Leads.head_mem (hl : Leads next a l b) (hne : l ≠ []) : a ∈ l := by
  cases l with
  | nil => exact absurd rfl hne
  | cons x l => simp [hl.1]

theorem Leads.target_eq (hl : Leads next a l b) (hl' : Leads next a l c) : b = c := by
  induction l generalizing a with
  | nil => exact hl.symm.trans hl'
  | cons x l ih => exact ih hl.2 hl'.2

theorem Leads.map_next (hl : Leads next a (x :: l) b) : (x :: l).map next = l ++ [b] := by
  induction l generalizing a x with
  | nil => simpa using hl.2
  | cons y l ih =>
    obtain ⟨-, hxy, hl⟩ := hl
    rw [map_cons, hxy, ih (a := y) ⟨rfl, hl⟩, cons_append]

section

variable (hc : IsCircle next h l)

include hc

theorem IsCircle.head : ∃ m, l = h :: m := by
  cases l with
  | nil => exact absurd rfl hc.ne_nil
  | cons x m => exact ⟨m, by rw [hc.leads.1]⟩

theorem IsCircle.head_mem : h ∈ l := hc.leads.head_mem hc.ne_nil

theorem IsCircle.map_next : (l.map next).Perm l := by
  obtain ⟨m, rfl⟩ := hc.head
  rw [hc.leads.map_next]
  exact perm_append_singleton h m

theorem IsCircle.next_mem (hx : x ∈ l) : next x ∈ l :=
  hc.map_next.mem_iff.mp (mem_map_of_mem hx)

theorem IsCircle.next_inj (hp : p ∈ l) (hx : x ∈ l) (heq : next p = next x) : p = x :=
  inj_on_of_nodup_map (hc.map_next.nodup_iff.mpr hc.nodup) hp hx heq

end

theorem Leads.isPrefix (hl : Leads next a l₁ b) (hl' : Leads next a l₂ c)
    (hle : l₁.length ≤ l₂.length) : l₁ <+: l₂ := by
  induction l₁ generalizing a l₂ with
  | nil => exact nil_prefix
  | cons x l₁ ih =>
    cases l₂ with
    | nil => simp at hle
    | cons y l₂ =>
      obtain rfl : x = y := hl.1.symm.trans hl'.1
      exact cons_prefix_cons.mpr ⟨rfl, ih hl.2 hl'.2 (by simpa using hle)⟩

theorem IsCircle.unique (hc : IsCircle next h l₁) (hc' : IsCircle next h l₂) : l₁ = l₂ := by
  have hshort : ∀ {l₁ l₂ : List α}, IsCircle next h l₁ → IsCircle next h l₂ →
      l₁.length ≤ l₂.length → l₁ = l₂ := by
    intro l₁ l₂ hc hc' hle
    obtain ⟨r, rfl⟩ := hc.leads.isPrefix hc'.leads hle
    cases r with
    | nil => rw [append_nil]
    | cons y r =>
      -- the second list would come back to the head
      obtain ⟨b, hb, rfl, -⟩ := leads_append.mp hc'.leads
      obtain rfl := hb.target_eq hc.leads
      exact absurd rfl ((nodup_append.mp hc'.nodup).2.2 b hc.head_mem b (by simp))
  rcases Nat.le_total l₁.length l₂.length with hle | hle
  · exact hshort hc hc' hle
  · exact (hshort hc' hc hle).symm

theorem IsCircle.turn (hc : IsCircle next h (l₁ ++ t :: l₂)) : IsCircle next t (t :: l₂ ++ l₁) where
  nodup := perm_append_comm.nodup_iff.mp hc.nodup
  ne_nil := by simp
  leads := by
    obtain ⟨b, hfirst, rfl, hrest⟩ := leads_append.mp hc.leads
    exact leads_append.mpr ⟨h, ⟨rfl, hrest⟩, hfirst⟩

section

variable (hc : IsCircle next h l)

include hc

theorem IsCircle.eq_singleton (hh : next h = h) : l = [h] := by
  obtain ⟨m, rfl⟩ := hc.head
  cases m with
  | nil => rfl
  | cons x m =>
    obtain rfl : h = x := hh.symm.trans hc.leads.2.1
    simpa using hc.nodup

theorem IsCircle.exists_before (ht : t ∈ l) :
    ∃ l' p l₂, l = l' ++ p :: l₂ ∧ Leads next h (l' ++ [p]) t ∧ t ∉ (l' ++ [p]).tail := by
  have hsplit : ∀ m : List α, m ≠ [] → ∃ l' p, m = l' ++ [p] := fun m hm =>
    ⟨_, _, (dropLast_concat_getLast hm).symm⟩
  obtain ⟨m, rfl⟩ := hc.head
  have hnd := hc.nodup
  have hl := hc.leads
  by_cases hht : t = h
  · subst hht
    obtain ⟨l', p, hl'⟩ := hsplit (t :: m) (cons_ne_nil t m)
    exact ⟨l', p, [], hl', hl' ▸ hl, hl' ▸ (nodup_cons.mp hnd).1⟩
  · obtain ⟨m₁, m₂, rfl⟩ := append_of_mem ((mem_cons.mp ht).resolve_left hht)
    obtain ⟨l', p, hl'⟩ := hsplit (h :: m₁) (cons_ne_nil h m₁)
    rw [← cons_append, hl'] at hl hnd ⊢
    obtain ⟨b, hb, rfl, -⟩ := leads_append.mp hl
    refine ⟨l', p, b :: m₂, by simp, hb, fun hmem => ?_⟩
    exact (nodup_append.mp hnd).2.2 b (mem_of_mem_tail hmem) b (by simp) rfl

theorem IsCircle.rotate (ht : t ∈ l) : ∃ l', IsCircle next t l' ∧ l'.Perm l := by
  obtain ⟨l₁, l₂, rfl⟩ := append_of_mem ht
  exact ⟨t :: l₂ ++ l₁, hc.turn, perm_append_comm⟩

theorem IsCircle.congr {next' : α → α} (heq : ∀ x ∈ l, next' x = next x) : IsCircle next' h l where
  nodup := hc.nodup
  ne_nil := hc.ne_nil
  leads := by
    have hall : ∀ {a : α} {m : List α}, Leads next a m h → (∀ x ∈ m, next' x = next x) →
        Leads next' a m h := by
      intro a m hl hm
      induction m generalizing a with
      | nil => exact hl
      | cons x m ih =>
        exact ⟨hl.1, hm x (by simp) ▸ ih hl.2 fun y hy => hm y (by simp [hy])⟩
    exact hall hc.leads heq

theorem IsCircle.eq_head (ht : t ∈ l) (hself : next t = t) : t = h := by
  obtain ⟨l', p, l₂, rfl, hl, hnot⟩ := hc.exists_before ht
  obtain rfl := hc.next_inj (by simp) ht ((leads_concat.mp hl).2.trans hself.symm)
  cases l' with
  | nil => exact hl.1.symm
  | cons x l' => simp at hnot

end

section Write

variable [DecidableEq α]

theorem Leads.write (hl : Leads next a l b) (hx : x ∉ l) (v : α) :
    Leads (update next x v) a l b := by
  induction l generalizing a with
  | nil => exact hl
  | cons y l ih =>
    rw [mem_cons, not_or] at hx
    refine ⟨hl.1, ?_⟩
    rw [update_of_ne (Ne.symm hx.1)]
    exact ih hl.2 hx.2

theorem isCircle_singleton (next : α → α) (x : α) : IsCircle (update next x x) x [x] where
  nodup := nodup_singleton x
  ne_nil := cons_ne_nil x []
  leads := ⟨rfl, update_self ..⟩

theorem IsCircle.concat (hc : IsCircle next h l) (hp : p ∈ l) (hph : next p = h) (hx : x ∉ l) :
    IsCircle (update (update next p x) x h) h (l ++ [x]) where
  nodup := nodup_append_comm.mp (nodup_cons.mpr ⟨hx, hc.nodup⟩)
  ne_nil := by simp
  leads := by
    obtain ⟨l', q, rfl⟩ : ∃ l' q, l = l' ++ [q] :=
      ⟨_, _, (dropLast_concat_getLast hc.ne_nil).symm⟩
    obtain ⟨hl, hq⟩ := leads_concat.mp hc.leads
    obtain rfl := hc.next_inj hp (by simp) (hph.trans hq.symm)
    have hnd := hc.nodup
    rw [nodup_append_comm, singleton_append, nodup_cons] at hnd
    refine leads_concat.mpr ⟨Leads.write (leads_concat.mpr ⟨?_, ?_⟩) hx h, ?_⟩
    · exact hl.write hnd.1 x
    · exact update_self ..
    · exact update_self ..

theorem IsCircle.unlink (hc : IsCircle next h (l₁ ++ p :: t :: l₂)) :
    IsCircle (update next p (next t)) h (l₁ ++ p :: l₂) where
  nodup := hc.nodup.sublist (by simp)
  ne_nil := by simp
  leads := by
    have hnd := hc.nodup
    obtain ⟨b, hl, rfl, -, hr⟩ := leads_append.mp hc.leads
    simp only [nodup_append, nodup_cons, mem_cons, not_or] at hnd
    refine leads_append.mpr ⟨b, hl.write (fun hb => hnd.2.2 b hb b (by simp) rfl) _, rfl, ?_⟩
    rw [update_self]
    exact Leads.write hr hnd.2.1.1.2 _

theorem IsCircle.unlink_head (hc : IsCircle next h (h :: (l ++ [p]))) :
    IsCircle (update next p (next h)) (next h) (l ++ [p]) where
  nodup := (nodup_cons.mp hc.nodup).2
  ne_nil := by simp
  leads := by
    have hnd := (nodup_cons.mp hc.nodup).2
    rw [nodup_append_comm, singleton_append, nodup_cons] at hnd
    obtain ⟨hl, -⟩ := leads_concat.mp hc.leads.2
    exact leads_concat.mpr ⟨hl.write hnd.1 _, update_self ..⟩

theorem IsCircle.erase (hc : IsCircle next h l) (hp : p ∈ l) (hpt : next p = t) (hne : next t ≠ t) :
    IsCircle (update next p (next t)) (if h = t then next t else h) (l.erase t) := by
  have htl : t ∈ l := hpt ▸ hc.next_mem hp
  obtain ⟨l', q, l₂, rfl, hl, hnot⟩ := hc.exists_before htl
  obtain rfl := hc.next_inj hp (by simp) (hpt.trans (leads_concat.mp hl).2.symm)
  have hnd := hc.nodup
  obtain ⟨b, hb, hrest⟩ := leads_append.mp hc.leads
  obtain ⟨rfl, hrest⟩ := hrest
  rw [hpt] at hrest
  cases l₂ with
  | nil =>
    -- the node before the head is the last one
    obtain rfl : t = h := hrest
    cases l' with
    | nil =>
      obtain rfl : t = b := hb
      exact absurd hpt hne
    | cons x l' =>
      obtain rfl : t = x := hb.1
      rw [if_pos rfl, cons_append, erase_cons_head]
      exact hc.unlink_head
  | cons y l₂ =>
    obtain rfl : t = y := hrest.1
    have hth : h ≠ t := by
      rintro rfl
      cases l' with
      | nil =>
        obtain rfl : h = b := hb
        exact absurd hpt hne
      | cons x l' =>
        obtain rfl : h = x := hb.1
        simp at hnd
    have hmem : t ∉ l' ++ [b] := by
      intro hmem
      rw [append_cons] at hnd
      exact (nodup_append.mp hnd).2.2 t hmem t (by simp) rfl
    rw [if_neg hth, append_cons, erase_append_right _ hmem, erase_cons_head, append_assoc]
    exact hc.unlink

end Write

section Search

variable [DecidableEq α]

def before (next : α → α) (stop : α) : ℕ → α → Option α
  | 0, _ => none
  | fuel + 1, x => if next x = stop then some x else before next stop fuel (next x)

/-- Follow the links to the node before `target`, but no further than before `stop`. -/
def beforeOrLast (next : α → α) (target stop : α) : ℕ → α → Option α
  | 0, _ => none
  | fuel + 1, x =>
    if next x = target then some x
    else if next (next x) = stop then some (next x)
    else beforeOrLast next target stop fuel (next x)

variable {fuel : ℕ}

theorem Leads.before_eq (hl : Leads next a (l ++ [p]) t) (ht : t ∉ (l ++ [p]).tail)
    (hf : l.length < fuel) : before next t fuel a = some p := by
  induction l generalizing a fuel with
  | nil =>
    obtain ⟨rfl, hp⟩ := hl
    obtain ⟨fuel, rfl⟩ := Nat.exists_eq_succ_of_ne_zero hf.ne'
    exact if_pos hp
  | cons x l ih =>
    obtain ⟨rfl, hl⟩ := hl
    obtain ⟨fuel, rfl⟩ := Nat.exists_eq_succ_of_ne_zero (Nat.ne_of_gt (Nat.zero_lt_of_lt hf))
    have hne : next a ≠ t := by
      rintro rfl
      cases l with
      | nil => exact ht (by simp [hl.1])
      | cons y l => exact ht (by simp [hl.1])
    rw [before, if_neg hne]
    exact ih hl (fun hmem => ht (mem_of_mem_tail hmem)) (Nat.lt_of_succ_lt_succ hf)

theorem before_spec {K : Set α} (hK : ∀ x ∈ K, next x ∈ K) (ha : a ∈ K)
    (heq : before next t fuel a = some p) : p ∈ K ∧ next p = t := by
  induction fuel generalizing a with
  | zero => simp [before] at heq
  | succ fuel ih =>
    rw [before] at heq
    split_ifs at heq with hat
    · cases heq
      exact ⟨ha, hat⟩
    · exact ih (hK a ha) heq

theorem IsCircle.before_eq (hc : IsCircle next h l) (ht : t ∈ l) (hf : l.length ≤ fuel) :
    ∃ p ∈ l, next p = t ∧ before next t fuel h = some p := by
  obtain ⟨l', p, l₂, rfl, hl, hnot⟩ := hc.exists_before ht
  refine ⟨p, by simp, (leads_concat.mp hl).2, hl.before_eq hnot ?_⟩
  simp at hf
  omega

theorem Leads.beforeOrLast_eq {q : α} (hl : Leads next a (x :: l ++ [q]) h)
    (hnot : h ∉ l ++ [q]) (hf : l.length < fuel) :
    ∃ p ∈ x :: l ++ [q], beforeOrLast next t h fuel a = some p ∧
      (next p = t ∨ p = q ∧ ∀ y ∈ x :: l, next y ≠ t) := by
  induction l generalizing a x fuel with
  | nil =>
    obtain ⟨rfl, hq, hh⟩ := hl
    obtain ⟨fuel, rfl⟩ := Nat.exists_eq_succ_of_ne_zero hf.ne'
    by_cases hat : next a = t
    · exact ⟨a, by simp, if_pos hat, .inl hat⟩
    · refine ⟨q, by simp, ?_, .inr ⟨rfl, by simpa using hat⟩⟩
      rw [beforeOrLast, if_neg hat, hq, if_pos (leads_nil.mp hh)]
  | cons y l ih =>
    obtain ⟨rfl, hl⟩ := hl
    obtain ⟨fuel, rfl⟩ := Nat.exists_eq_succ_of_ne_zero (Nat.ne_of_gt (Nat.zero_lt_of_lt hf))
    by_cases hat : next a = t
    · exact ⟨a, by simp, if_pos hat, .inl hat⟩
    · have hne : next (next a) ≠ h := by
        rintro rfl
        have hmem := Leads.head_mem hl.2 (by simp)
        rw [← hl.1] at hmem
        exact hnot (mem_cons_of_mem y hmem)
      obtain ⟨p, hp, heq, hcases⟩ := ih hl (fun hmem => hnot (by simp_all))
        (Nat.lt_of_succ_lt_succ hf)
      refine ⟨p, mem_cons_of_mem a hp, ?_, ?_⟩
      · rw [beforeOrLast, if_neg hat, if_neg hne, heq]
      · rcases hcases with hpt | ⟨rfl, hall⟩
        · exact .inl hpt
        · refine .inr ⟨rfl, ?_⟩
          rintro z (_ | ⟨_, hz⟩)
          · exact hat
          · exact hall z hz

theorem IsCircle.beforeOrLast_eq (hc : IsCircle next h l) (hf : l.length ≤ fuel) :
    ∃ p ∈ l, beforeOrLast next t h fuel h = some p ∧ (t ∈ l → next p = t) := by
  obtain ⟨m, rfl⟩ := hc.head
  cases hm : m.reverse with
  | nil =>
    -- a node alone is before itself
    obtain rfl : m = [] := reverse_eq_nil_iff.mp hm
    have hh : next h = h := hc.leads.2
    obtain ⟨fuel, rfl⟩ := Nat.exists_eq_succ_of_ne_zero (Nat.ne_of_gt (Nat.zero_lt_of_lt hf))
    refine ⟨h, by simp, ?_, fun ht => hh.trans (mem_singleton.mp ht).symm⟩
    simp [beforeOrLast, hh]
  | cons q m' =>
    obtain rfl : m = m'.reverse ++ [q] := by simpa using congrArg reverse hm
    have hlen : m'.reverse.length < fuel := by
      simp at hf ⊢
      omega
    obtain ⟨p, hp, heq, hcases⟩ := Leads.beforeOrLast_eq (t := t) hc.leads
      (nodup_cons.mp hc.nodup).1 hlen
    refine ⟨p, hp, heq, fun ht => ?_⟩
    rcases hcases with hpt | ⟨rfl, hall⟩
    · exact hpt
    · obtain ⟨z, hz, rfl⟩ := mem_map.mp (hc.map_next.mem_iff.mpr ht)
      rw [← cons_append, mem_append, mem_singleton] at hz
      rcases hz with hz | rfl
      · exact absurd rfl (hall z hz)
      · rfl

end Search

end Circle
