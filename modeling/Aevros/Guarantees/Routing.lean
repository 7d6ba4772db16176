import Aevros.Library.Runs
import Aevros.Office.Tables

/-! # Routing

A lookup should give the gateway of the longest matching prefix. `atlas_lookup` gives the gateway in
slot 1 whenever anything matches.
-/

namespace Aevros

open BitVec

inductive AtlasCall
  | addRoute (network netmask gateway : Ip4)
  | removeRoute (network netmask : Ip4)
  | setDefaultGateway (gateway : Ip4)
  deriving DecidableEq

def Atlas.call (t : Atlas) : AtlasCall → Atlas
  | .addRoute network netmask gateway => (atlasAddRoute t network netmask gateway).2
  | .removeRoute network netmask => (atlasRemoveRoute t network netmask).2
  | .setDefaultGateway gateway => atlasSetDefaultGateway t gateway

def Ip4.maskLen (netmask : Ip4) : ℕ := (List.range 32).countP fun i => netmask.word.getMsbD i

/-- The route is stored and the destination agrees with its network on the bits of its netmask. -/
def AtlasRoute.Matches (r : AtlasRoute) (dest : Ip4) : Prop :=
  r.inUse = true ∧ dest.word &&& r.netmask.word = r.network.word &&& r.netmask.word

def hop (dest gateway : Ip4) : Ip4 := if gateway = .zero then dest else gateway

instance (r : AtlasRoute) (dest : Ip4) : Decidable (r.Matches dest) :=
  inferInstanceAs (Decidable (_ ∧ _))

namespace Atlas

variable (t : Atlas) (dest : Ip4)

def Reaches : Prop := ∃ i, (t.routes i).Matches dest

def Best (i : Fin atlasMaxRoutes) : Prop :=
  (t.routes i).Matches dest ∧ ∀ j, (t.routes j).Matches dest →
    (t.routes j).netmask.maskLen ≤ (t.routes i).netmask.maskLen

structure LongestPrefix (answer : Option Ip4) : Prop where
  isSome_iff : answer.isSome = true ↔ t.Reaches dest ∨ t.haveDefaultGateway = true
  routed : t.Reaches dest → ∀ h ∈ answer, ∃ i, t.Best dest i ∧ h = hop dest (t.routes i).gateway
  fallback : ¬ t.Reaches dest → ∀ h ∈ answer, h = t.defaultGateway

theorem one_lt_maxRoutes : 1 < atlasMaxRoutes := by decide

/-- The gateway in slot 1 leads where a best route leads, or else there is none. -/
def SlotOneServes : Prop :=
  (t.Reaches dest → ∃ i, t.Best dest i ∧
    hop dest (t.routes ⟨1, one_lt_maxRoutes⟩).gateway = hop dest (t.routes i).gateway) ∧
  (¬ t.Reaches dest → t.haveDefaultGateway = false)

instance : Decidable (t.Reaches dest) := inferInstanceAs (Decidable (∃ _, _))

instance (i : Fin atlasMaxRoutes) : Decidable (t.Best dest i) :=
  inferInstanceAs (Decidable (_ ∧ ∀ _, _))

instance : Decidable (t.SlotOneServes dest) := inferInstanceAs (Decidable (_ ∧ _))

end Atlas

variable {t : Atlas} {dest : Ip4}

theorem append_eq_append_iff {v w : ℕ} {a b : BitVec v} {c d : BitVec w} :
    a ++ c = b ++ d ↔ a = b ∧ c = d := by
  constructor
  · intro h
    refine ⟨?_, ?_⟩
    · simpa only [extractLsb'_append_eq_left] using congrArg (extractLsb' w v) h
    · simpa only [extractLsb'_append_eq_right] using congrArg (extractLsb' 0 w) h
  · rintro ⟨rfl, rfl⟩
    rfl

theorem Ip4.word_and (x m : Ip4) : x.word &&& m.word =
    ((x.a &&& m.a) ++ (x.b &&& m.b) ++ (x.c &&& m.c) ++ (x.d &&& m.d) :
      BitVec (8 + 8 + 8 + 8)) := by
  rw [← and_append, ← and_append, ← and_append]
  rfl

theorem sameNet_iff (ip network netmask : Ip4) : sameNet ip network netmask = true ↔
    ip.word &&& netmask.word = network.word &&& netmask.word := by
  rw [Ip4.word_and, Ip4.word_and, append_eq_append_iff, append_eq_append_iff, append_eq_append_iff]
  simp only [sameNet, Bool.and_eq_true, decide_eq_true_eq]

theorem atlasLookupFrom_cons (t : Atlas) (dest : Ip4) (i : Fin atlasMaxRoutes)
    (is : List (Fin atlasMaxRoutes)) : atlasLookupFrom t dest (i :: is) none (-1) =
      if (t.routes i).Matches dest then some (hop dest (t.routes 1).gateway)
      else atlasLookupFrom t dest is none (-1) := by
  have hmatch : (t.routes i).Matches dest ↔ (t.routes i).inUse = true ∧
      sameNet dest (t.routes i).network (t.routes i).netmask = true := by
    rw [AtlasRoute.Matches, sameNet_iff]
  by_cases hu : (t.routes i).inUse = true
  · have hin : ¬ (!(t.routes i).inUse) = true := by simp [hu]
    by_cases hn : sameNet dest (t.routes i).network (t.routes i).netmask = true
    · rw [if_pos (hmatch.mpr ⟨hu, hn⟩)]
      refine (if_neg hin).trans ((if_neg (by simp [hn])).trans ?_)
      rfl
    · rw [if_neg fun h => hn (hmatch.mp h).2]
      exact (if_neg hin).trans (if_pos (by simp [hn]))
  · rw [if_neg fun h => hu (hmatch.mp h).1]
    exact if_pos (by simp [hu])

theorem atlasLookupFrom_eq (t : Atlas) (dest : Ip4) (is : List (Fin atlasMaxRoutes)) :
    atlasLookupFrom t dest is none (-1) =
      if ∃ i ∈ is, (t.routes i).Matches dest then some (hop dest (t.routes 1).gateway)
      else none := by
  induction is with
  | nil => simp [show atlasLookupFrom t dest [] none (-1) = none from rfl]
  | cons i is ih =>
    rw [atlasLookupFrom_cons, ih]
    by_cases hm : (t.routes i).Matches dest <;> simp [hm]

theorem atlasLookup_eq (t : Atlas) (dest : Ip4) : atlasLookup t dest =
    if t.Reaches dest then some (hop dest (t.routes 1).gateway) else none := by
  rw [atlasLookup, atlasLookupFrom_eq]
  refine if_congr ?_ rfl rfl
  simp [Atlas.Reaches]

/-- After any calls, a lookup is a longest-prefix match exactly if slot 1 serves. -/
theorem lookup_longestPrefix_iff (calls : List AtlasCall) (dest : Ip4) :
    let t := Runs.run Atlas.call {} calls
    t.LongestPrefix dest (atlasLookup t dest) ↔ t.SlotOneServes dest := by
  intro t
  rw [atlasLookup_eq]
  split_ifs with hr
  · constructor
    · intro h
      refine ⟨fun _ => ?_, fun hn => absurd hr hn⟩
      exact h.routed hr _ rfl
    · intro h
      refine ⟨by simp [hr], fun _ g hg => ?_, fun hn => absurd hr hn⟩
      cases hg
      exact h.1 hr
  · constructor
    · intro h
      refine ⟨fun hr' => absurd hr' hr, fun _ => ?_⟩
      have := h.isSome_iff
      simpa [hr] using this
    · intro h
      refine ⟨by simp [hr, h.2 hr], fun hr' => absurd hr' hr, ?_⟩
      rintro - g ⟨⟩

theorem gateway_of_only_route_ignored :
    let t := Runs.run Atlas.call {} [.addRoute ⟨10, 0, 3, 0⟩ ⟨255, 255, 255, 0⟩ ⟨10, 0, 2, 1⟩]
    atlasLookup t ⟨10, 0, 3, 7⟩ = some ⟨10, 0, 3, 7⟩ ∧
      ¬ t.LongestPrefix ⟨10, 0, 3, 7⟩ (atlasLookup t ⟨10, 0, 3, 7⟩) := by
  intro t
  refine ⟨by decide +kernel, fun h => ?_⟩
  have hnone : ¬ ∃ i, t.Best ⟨10, 0, 3, 7⟩ i ∧
      (⟨10, 0, 3, 7⟩ : Ip4) = hop ⟨10, 0, 3, 7⟩ (t.routes i).gateway := by decide +kernel
  have hr : t.Reaches ⟨10, 0, 3, 7⟩ := by decide +kernel
  have ha : atlasLookup t ⟨10, 0, 3, 7⟩ = some ⟨10, 0, 3, 7⟩ := by decide +kernel
  exact hnone (h.routed hr _ ha)

end Aevros
