import Mathlib.Tactic

/-! # Lists of tagged values

A tagged value is written as its code, the number of its bytes and the bytes; a pad is a zero byte
alone, and 255 ends the list. `scan` reads such a list without knowing of pads.
-/

namespace Tagged

open List

inductive Item
  | pad
  | value (code : BitVec 8) (bytes : List (BitVec 8))
  deriving DecidableEq

def Item.bytes : Item → List (BitVec 8)
  | .pad => [0]
  | .value code v => code :: BitVec.ofNat 8 v.length :: v

def Item.WellFormed : Item → Prop
  | .pad => True
  | .value code v => code ≠ 0 ∧ code ≠ 255 ∧ v.length < 256

def write (l : List Item) : List (BitVec 8) := l.flatMap Item.bytes

/-- The value of the last item with the code. -/
def valueOf (code : BitVec 8) : List Item → Option (List (BitVec 8))
  | [] => none
  | .pad :: l => valueOf code l
  | .value c v :: l => (valueOf code l).or (if c = code then some v else none)

/-- The pads stand in runs of even length. -/
def PadsPaired : List Item → Prop
  | [] => True
  | .pad :: .pad :: l => PadsPaired l
  | .pad :: _ => False
  | .value _ _ :: l => PadsPaired l

/-- Codes and values up to the end marker, or to the first value that does not fit. -/
def scan : List (BitVec 8) → List (BitVec 8 × List (BitVec 8))
  | code :: n :: l =>
    if code = 255 ∨ l.length < n.toNat then []
    else (code, l.take n.toNat) :: scan (l.drop n.toNat)
  | _ => []
termination_by l => l.length

/-- The last of the values of at least `k` bytes with the code. -/
def lastOf (code : BitVec 8) (k : ℕ) (l : List (BitVec 8 × List (BitVec 8))) :
    Option (List (BitVec 8)) :=
  (l.filter fun o => o.1 = code ∧ k ≤ o.2.length).getLast?.map Prod.snd

variable {l : List Item} {code : BitVec 8} {v rest : List (BitVec 8)} {k : ℕ}

theorem lastOf_cons (o : BitVec 8 × List (BitVec 8)) (os : List (BitVec 8 × List (BitVec 8))) :
    lastOf code k (o :: os) =
      (lastOf code k os).or (if o.1 = code ∧ k ≤ o.2.length then some o.2 else none) := by
  unfold lastOf
  split_ifs with h <;> simp_all [getLast?_cons]

theorem length_bytes_le {x : Item} (hx : x ∈ l) : x.bytes.length ≤ (write l).length := by
  obtain ⟨l₁, l₂, rfl⟩ := append_of_mem hx
  simp only [write, flatMap_append, flatMap_cons, length_append]
  omega

theorem value_of_write_eq (hl : ∀ x ∈ l, x.WellFormed) {n : BitVec 8} {bytes : List (BitVec 8)}
    (hpad : code ≠ 0) (hend : code ≠ 255) (h : write l ++ 255 :: rest = code :: n :: bytes) :
    ∃ l', l = .value code (bytes.take n.toNat) :: l' ∧ n.toNat ≤ bytes.length ∧
      write l' ++ 255 :: rest = bytes.drop n.toNat := by
  cases l with
  | nil =>
    rw [write, flatMap_nil, nil_append, cons.injEq] at h
    exact absurd h.1.symm hend
  | cons x l =>
    rw [write, flatMap_cons, append_assoc] at h
    cases x with
    | pad => exact absurd (cons.inj h).1.symm hpad
    | value c v =>
      simp only [Item.bytes, cons_append, cons.injEq] at h
      obtain ⟨rfl, rfl, rfl⟩ := h
      have hv : v.length < 256 := (hl _ mem_cons_self).2.2
      have hn : (BitVec.ofNat 8 v.length).toNat = v.length := Nat.mod_eq_of_lt hv
      exact ⟨l, by rw [hn, take_left], by simp [hn], by rw [hn, drop_left]; rfl⟩

theorem scan_value (h : (Item.value code v).WellFormed) :
    scan ((Item.value code v).bytes ++ rest) = (code, v) :: scan rest := by
  obtain ⟨-, hend, hlen⟩ := h
  have hn : (BitVec.ofNat 8 v.length).toNat = v.length := Nat.mod_eq_of_lt hlen
  simpa [Item.bytes, scan, hn] using hend

theorem lastOf_scan_write (hl : ∀ x ∈ l, x.WellFormed) (hpads : PadsPaired l) (hcode : code ≠ 0)
    (hk : ∀ v, .value code v ∈ l → k ≤ v.length) :
    lastOf code k (scan (write l ++ 255 :: rest)) = valueOf code l := by
  fun_induction PadsPaired l with
  | case1 => cases rest <;> simp [write, scan, lastOf, valueOf]
  | case2 l ih =>
    have hscan : scan (write (.pad :: .pad :: l) ++ 255 :: rest) =
        (0, []) :: scan (write l ++ 255 :: rest) := by
      simp [write, Item.bytes, scan]
    rw [hscan, lastOf_cons, ih (fun x hx => hl x (by simp [hx])) hpads
      fun v hv => hk v (by simp [hv])]
    rw [if_neg fun h => hcode h.1.symm, valueOf, valueOf, Option.or_none]
  | case3 => exact hpads.elim
  | case4 c v l ih =>
    have hscan : scan (write (.value c v :: l) ++ 255 :: rest) =
        (c, v) :: scan (write l ++ 255 :: rest) := by
      rw [← scan_value (hl _ mem_cons_self)]
      simp [write]
    have hv : c = code → k ≤ v.length := by
      rintro rfl
      exact hk v mem_cons_self
    rw [hscan, lastOf_cons, ih (fun x hx => hl x (by simp [hx])) hpads
      fun v hv => hk v (by simp [hv])]
    by_cases hc : c = code <;> simp [valueOf, hc, hv]

end Tagged
