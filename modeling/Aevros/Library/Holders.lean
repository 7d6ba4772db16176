import Mathlib.Tactic

/-! # Counting references

Each member of a finite set holds a reference to one thing or to none. The rules say how the
number of holders of a thing changes when one member changes what it holds, and when members
are added.
-/

namespace Holders

open Function Finset

variable {ι κ : Type*} [DecidableEq κ] {D E : Finset ι} {g g' : ι → Option κ}
  {x : ι} {k : κ} {o : Option κ}

def holders (D : Finset ι) (g : ι → Option κ) (k : κ) : Finset ι := D.filter fun x => g x = some k

theorem mem_holders : x ∈ holders D g k ↔ x ∈ D ∧ g x = some k := mem_filter

theorem holders_congr (h : ∀ x ∈ D, g x = some k ↔ g' x = some k) :
    holders D g k = holders D g' k :=
  filter_congr h

variable [DecidableEq ι]

theorem card_holders_update (hx : x ∈ D) (o : Option κ) (k : κ) :
    (holders D (update g x o) k).card + (if g x = some k then 1 else 0) =
      (holders D g k).card + if o = some k then 1 else 0 := by
  have herase : ∀ g : ι → Option κ, (holders D g k).card =
      (holders (D.erase x) g k).card + if g x = some k then 1 else 0 := by
    intro g
    nth_rewrite 1 [holders, ← insert_erase hx]
    rw [filter_insert]
    split_ifs with hk
    · rw [card_insert_of_notMem (by simp), holders]
    · rw [holders, Nat.add_zero]
  have hrest : holders (D.erase x) (update g x o) k = holders (D.erase x) g k :=
    holders_congr fun y hy => by rw [update_of_ne (ne_of_mem_erase hy)]
  rw [herase (update g x o), hrest, herase g, update_self]
  omega

theorem card_holders_union (hdisj : Disjoint D E) (hD : ∀ x ∈ D, g' x = g x) (k : κ) :
    (holders (D ∪ E) g' k).card = (holders D g k).card + (holders E g' k).card := by
  have hleft : holders D g' k = holders D g k := holders_congr fun x hx => by rw [hD x hx]
  rw [holders, filter_union,
    card_union_of_disjoint (hdisj.mono (filter_subset ..) (filter_subset ..))]
  change (holders D g' k).card + (holders E g' k).card = _
  rw [hleft]

end Holders
