import Aevros.Library.Runs
import Aevros.Library.Keyed
import Aevros.Library.Wrap
import Aevros.Office.Tables

/-! # The hardware addresses of neighbours

The Rolodex believes the first claim to an IP address until it was not confirmed for more than 6000
ticks, and marks an entry as disputed when others claim it before.
-/

namespace Aevros

open Keyed Runs Rolodex RolodexEntry Function

section

variable (e : RolodexEntry)

namespace RolodexEntry

def key : Option Ip4 := tag e.inUse e.ip

theorem key_eq_some_iff {e : RolodexEntry} {ip : Ip4} :
    e.key = some ip ↔ e.inUse = true ∧ e.ip = ip := tag_eq_some_iff

def Stale (now : Word) : Prop :=
  rolodexEntryTimeoutTicks < now - e.lastSeen

def Live (now : Word) : Prop := e.inUse = true ∧ ¬ e.Stale now

def claimed (now : Word) (mac : Mac) : RolodexEntry :=
  if e.mac = mac then { e with lastSeen := now } else { e with disputed := true }

end RolodexEntry

end

namespace Rolodex

variable {r : Rolodex} {now : Word} {ip : Ip4} {mac : Mac}
  {i : Fin rolodexCapacity}

theorem findEntry_eq (r : Rolodex) (ip : Ip4) : r.findEntry ip = find RolodexEntry.key r.book ip :=
  find_tag RolodexEntry.inUse RolodexEntry.ip r.book ip

theorem lookup_eq (r : Rolodex) (ip : Ip4) :
    rolodexLookup r ip = (get RolodexEntry.key r.book ip).map RolodexEntry.mac := by
  rw [rolodexLookup, findEntry_eq, Keyed.get, Option.map_map]
  rfl

theorem shed_expireStaleEntries (r : Rolodex) (now : Word) : Shed key
    (RolodexEntry.Live · now) r.book (r.expireStaleEntries now).book := by
  constructor
  · intro i h
    refine if_neg fun hs => h.2 ?_
    simpa [h.1, RolodexEntry.Stale] using hs
  · intro i h
    rw [key, tag_eq_none_iff]
    unfold expireStaleEntries
    dsimp only
    split_ifs with hc
    · rfl
    · refine Bool.eq_false_iff.mpr fun hu => h ⟨hu, fun hs => hc ?_⟩
      simpa [hu, RolodexEntry.Stale] using hs

theorem expireStaleEntries_of_live (h : (r.book i).Live now) :
    (r.expireStaleEntries now).book i = r.book i := (shed_expireStaleEntries r now).kept i h

theorem expireStaleEntries_key : ((r.expireStaleEntries now).book i).key = some ip ↔
      (r.book i).Live now ∧ (r.book i).ip = ip := by
  rw [(shed_expireStaleEntries r now).key_iff, key_eq_some_iff]
  exact and_congr_right fun h => and_iff_right h.1

theorem learnOrDispute_cases (r : Rolodex) (now : Word) (ip : Ip4) (mac : Mac) :
    (∃ i, (r.book i).Live now ∧ (r.book i).ip = ip ∧ (r.learnOrDispute now ip mac).book =
      update (r.expireStaleEntries now).book i ((r.book i).claimed now mac)) ∨
    (∀ j, (r.book j).Live now → (r.book j).ip ≠ ip) ∧
      ((∃ i, ¬ (r.book i).Live now ∧ (r.learnOrDispute now ip mac).book =
        update (r.expireStaleEntries now).book i ⟨ip, mac, now, true, false⟩) ∨
      (r.learnOrDispute now ip mac).book = (r.expireStaleEntries now).book) := by
  unfold learnOrDispute
  dsimp only
  rw [findEntry_eq]
  split
  · rename_i i hi
    obtain ⟨hl, hip⟩ := expireStaleEntries_key.mp (key_of_find hi)
    refine .inl ⟨i, hl, hip, ?_⟩
    rw [expireStaleEntries_of_live hl, RolodexEntry.claimed]
    split_ifs <;> rfl
  · rename_i hnone
    refine .inr ⟨fun j hl hip => ?_, ?_⟩
    · exact find_eq_none_iff.mp hnone j (expireStaleEntries_key.mpr ⟨hl, hip⟩)
    · split
      · rename_i i hi
        refine .inl ⟨i, fun hl => ?_, rfl⟩
        have hfree := Fin.eq_true_of_find?_eq_some hi
        rw [expireStaleEntries_of_live hl, hl.1] at hfree
        exact Bool.noConfusion hfree
      · exact .inr rfl

theorem unique_learnOrDispute (hu : Unique key r.book) :
    Unique key (r.learnOrDispute now ip mac).book := by
  have he := (shed_expireStaleEntries r now).unique hu
  rcases learnOrDispute_cases r now ip mac with
    ⟨i, hl, hip, hb⟩ | ⟨hnone, ⟨i, -, hb⟩ | hb⟩
  · rw [hb]
    refine he.update fun k hk => .inl ?_
    have hkey : ((r.book i).claimed now mac).key = (r.book i).key := by
      unfold claimed
      split_ifs <;> rfl
    rw [expireStaleEntries_of_live hl, ← hkey, hk]
  · rw [hb]
    refine he.update ?_
    rintro k ⟨⟩
    refine .inr fun j hj => ?_
    obtain ⟨hl, hip⟩ := expireStaleEntries_key.mp hj
    exact hnone j hl hip
  · rwa [hb]

theorem learnOrDispute_of_live (hu : Unique key r.book)
    (hl : (r.book i).Live now) : (r.learnOrDispute now ip mac).book i =
      if (r.book i).ip = ip then (r.book i).claimed now mac else r.book i := by
  have hkey : ∀ {j}, (r.book j).Live now → (r.book j).ip = (r.book i).ip → j = i := by
    intro j hj hip
    exact hu (key_eq_some_iff.mpr ⟨hj.1, hip⟩) (key_eq_some_iff.mpr ⟨hl.1, rfl⟩)
  rcases learnOrDispute_cases r now ip mac with
    ⟨j, hj, hip, hb⟩ | ⟨hnone, ⟨j, hj, hb⟩ | hb⟩
  · rw [hb, update_apply]
    by_cases hij : i = j
    · rw [if_pos hij, hij, if_pos hip]
    · rw [if_neg hij, expireStaleEntries_of_live hl, if_neg]
      exact fun h => hij (hkey hj (hip.trans h.symm)).symm
  · have hij : i ≠ j := by
      rintro rfl
      exact hj hl
    rw [hb, update_of_ne hij, expireStaleEntries_of_live hl, if_neg (hnone i hl)]
  · rw [hb, expireStaleEntries_of_live hl, if_neg (hnone i hl)]

theorem live_or_learnt (h : ((r.learnOrDispute now ip mac).book i).inUse = true) :
    (r.book i).Live now ∨ (r.learnOrDispute now ip mac).book i = ⟨ip, mac, now, true, false⟩ := by
  have hexp : ((r.expireStaleEntries now).book i).inUse = true → (r.book i).Live now := fun hi =>
    (expireStaleEntries_key.mp (key_eq_some_iff.mpr ⟨hi, rfl⟩)).1
  rcases learnOrDispute_cases r now ip mac with
    ⟨j, hj, -, hb⟩ | ⟨-, ⟨j, -, hb⟩ | hb⟩
  · by_cases hij : i = j
    · exact .inl (hij ▸ hj)
    · rw [hb, update_of_ne hij] at h
      exact .inl (hexp h)
  · by_cases hij : i = j
    · exact .inr (by rw [hb, hij, update_self])
    · rw [hb, update_of_ne hij] at h
      exact .inl (hexp h)
  · rw [hb] at h
    exact .inl (hexp h)

end Rolodex

structure Neighbours where
  clock : ℕ := 0
  rolodex : Rolodex := {}
  claims : List (ℕ × Ip4 × Mac) := []

inductive NeighbourEvent where
  | learn (ip : Ip4) (mac : Mac)
  | handle (payload : List Byte) (srcMac : Mac)
  | setIp (ip : Ip4)
  | wait (ticks : ℕ)

/-- The claim in the event. A packet of the wrong size or with a forged sender makes none. -/
def NeighbourEvent.claim : NeighbourEvent → Option (Ip4 × Mac)
  | learn ip mac => some (ip, mac)
  | handle payload srcMac =>
    if payload.length = arpPacketSize ∧ Mac.read payload 8 = srcMac then
      some (Ip4.read payload 14, srcMac)
    else none
  | setIp _ => none
  | wait _ => none

namespace Neighbours

section

variable (s : Neighbours)

def now : Word := .ofNat 32 s.clock

section

variable (e : NeighbourEvent)

def note : List (ℕ × Ip4 × Mac) :=
  (e.claim.map fun c => (s.clock, c)).toList ++ s.claims

def step : Neighbours :=
  match e with
  | .learn ip mac => { s with rolodex := rolodexLearn s.now s.rolodex ip mac, claims := s.note e }
  | .handle payload srcMac =>
    { s with rolodex := rolodexHandle s.now s.rolodex payload srcMac, claims := s.note e }
  | .setIp ip => { s with rolodex := rolodexSetIp s.rolodex ip }
  | .wait ticks => { s with clock := s.clock + ticks }

theorem step_cases : (∃ ip mac, e.claim = some (ip, mac) ∧ (s.step e).clock = s.clock ∧
      (s.step e).rolodex.book = (s.rolodex.learnOrDispute s.now ip mac).book ∧
      (s.step e).claims = (s.clock, ip, mac) :: s.claims) ∨
    e.claim = none ∧ s.clock ≤ (s.step e).clock ∧
      (s.step e).rolodex.book = s.rolodex.book ∧ (s.step e).claims = s.claims := by
  cases e with
  | learn ip mac => exact .inl ⟨ip, mac, rfl, rfl, rfl, rfl⟩
  | handle payload srcMac =>
    by_cases h : payload.length = arpPacketSize ∧ Mac.read payload 8 = srcMac
    · refine .inl ⟨Ip4.read payload 14, srcMac, if_pos h, rfl, ?_, ?_⟩
      · show (rolodexHandle s.now s.rolodex payload srcMac).book = _
        unfold rolodexHandle
        rw [if_neg (not_not.mpr h.1), if_neg (not_not.mpr h.2), h.2]
        dsimp only
        split_ifs <;> rfl
      · simp [step, note, NeighbourEvent.claim, h]
    · refine .inr ⟨if_neg h, le_rfl, ?_, ?_⟩
      · show (rolodexHandle s.now s.rolodex payload srcMac).book = _
        unfold rolodexHandle
        dsimp only
        split_ifs with hlen hmac hrequest
        · rfl
        · rfl
        all_goals exact absurd ⟨not_not.mp hlen, not_not.mp hmac⟩ h
      · simp [step, note, NeighbourEvent.claim, h]
  | setIp ip => exact .inr ⟨rfl, le_rfl, rfl, rfl⟩
  | wait ticks => exact .inr ⟨rfl, Nat.le_add_right .., rfl, rfl⟩

end

/-- The entry's last confirmation was at the tick stored in it. -/
def Heard (x : RolodexEntry) : Prop :=
  ∃ t ≤ s.clock, x.lastSeen = .ofNat 32 t ∧ ∀ u, (u, x.ip, x.mac) ∈ s.claims → u ≤ t

end

structure Inv (s : Neighbours) : Prop where
  unique : Unique key s.rolodex.book
  past : ∀ c ∈ s.claims, c.1 ≤ s.clock
  heard : ∀ i, (s.rolodex.book i).inUse = true → s.Heard (s.rolodex.book i)

theorem inv_boot : Inv {} where
  unique := by
    intro i j k h
    simp [key_eq_some_iff] at h
  past := by simp
  heard := by simp

section

variable {s : Neighbours}

theorem Inv.step (h : s.Inv) (e : NeighbourEvent) : (s.step e).Inv := by
  rcases s.step_cases e with ⟨ip, mac, -, hclock, hbook, hclaims⟩ | ⟨-, hclock, hbook, hclaims⟩
  · refine ⟨?_, ?_, fun i hi => ?_⟩
    · rw [hbook]
      exact unique_learnOrDispute h.unique
    · rw [hclock, hclaims]
      rintro c (- | ⟨-, hc⟩)
      · exact le_rfl
      · exact h.past c hc
    · rw [hbook] at hi ⊢
      -- a claim about the entry is no later than now, so now is a time for it
      have hnow : ∀ u c, (u, c) ∈ (s.step e).claims → u ≤ s.clock := by
        rw [hclaims]
        rintro u c (- | ⟨-, hc⟩)
        · exact le_rfl
        · exact h.past _ hc
      rcases live_or_learnt hi with hl | hnew
      · obtain ⟨t, ht, hseen, hlast⟩ := h.heard i hl.1
        have hkeep : ((ip, mac) ≠ ((s.rolodex.book i).ip, (s.rolodex.book i).mac)) →
            ∀ u, (u, (s.rolodex.book i).ip, (s.rolodex.book i).mac) ∈ (s.step e).claims →
              u ≤ t := by
          rw [hclaims]
          rintro hne u (- | ⟨-, hu⟩)
          · exact absurd rfl hne
          · exact hlast u hu
        rw [learnOrDispute_of_live h.unique hl]
        unfold claimed
        split_ifs with hip hmac
        · exact ⟨s.clock, hclock.ge, rfl, fun u hu => hnow u _ hu⟩
        · exact ⟨t, ht.trans hclock.ge, hseen, hkeep fun hc => hmac (Prod.ext_iff.mp hc).2.symm⟩
        · exact ⟨t, ht.trans hclock.ge, hseen, hkeep fun hc => hip (Prod.ext_iff.mp hc).1.symm⟩
      · rw [hnew]
        exact ⟨s.clock, hclock.ge, rfl, fun u hu => hnow u _ hu⟩
  · refine ⟨?_, ?_, fun i hi => ?_⟩
    · rw [hbook]
      exact h.unique
    · rw [hclaims]
      exact fun c hc => (h.past c hc).trans hclock
    · rw [hbook] at hi ⊢
      obtain ⟨t, ht, hseen, hlast⟩ := h.heard i hi
      refine ⟨t, ht.trans hclock, hseen, ?_⟩
      rwa [hclaims]

theorem inv_run (es : List NeighbourEvent) : Inv (run step {} es) :=
  run_invariant (fun _ e h => h.step e) inv_boot es

/-- The Rolodex forgets that `mac` holds `ip`, unconfirmed for more than 6000 ticks. -/
def Forgets (s : Neighbours) (e : NeighbourEvent) (ip : Ip4) (mac : Mac) : Prop :=
  e.claim.isSome ∧ (∃ i, (s.rolodex.book i).inUse = true ∧ (s.rolodex.book i).ip = ip ∧
    (s.rolodex.book i).mac = mac ∧ (s.rolodex.book i).Stale s.now) ∧
  ∀ t, (t, ip, mac) ∈ s.claims → t + rolodexEntryTimeoutTicks.toNat < s.clock

theorem Inv.lookup_eq_some_iff (h : s.Inv) {ip : Ip4} {mac : Mac} :
    rolodexLookup s.rolodex ip = some mac ↔ ∃ i, (s.rolodex.book i).inUse = true ∧
      (s.rolodex.book i).ip = ip ∧ (s.rolodex.book i).mac = mac := by
  rw [lookup_eq, Option.map_eq_some_iff]
  constructor
  · rintro ⟨x, hx, rfl⟩
    obtain ⟨i, rfl, hkey⟩ := h.unique.get_eq_some_iff.mp hx
    obtain ⟨hi, hip⟩ := key_eq_some_iff.mp hkey
    exact ⟨i, hi, hip, rfl⟩
  · rintro ⟨i, hi, hip, hmac⟩
    have hkey := key_eq_some_iff.mpr ⟨hi, hip⟩
    exact ⟨_, h.unique.get_eq_some_iff.mpr ⟨i, rfl, hkey⟩, hmac⟩

theorem Heard.lt_of_stale {x : RolodexEntry} (h : s.Heard x)
    (hs : x.Stale s.now) {t : ℕ} (ht : (t, x.ip, x.mac) ∈ s.claims) :
    t + rolodexEntryTimeoutTicks.toNat < s.clock := by
  obtain ⟨u, hu, hseen, hlast⟩ := h
  have hage : rolodexEntryTimeoutTicks.toNat < (s.now - x.lastSeen).toNat := hs
  rw [hseen] at hage
  have hturns := hage.trans_le (Wrap.toNat_ofNat_sub_le hu)
  have hle := hlast t ht
  omega

theorem Inv.lookup_step (h : s.Inv) (e : NeighbourEvent) {ip : Ip4} {mac : Mac}
    (hm : rolodexLookup s.rolodex ip = some mac) :
    rolodexLookup (s.step e).rolodex ip = some mac ∨ s.Forgets e ip mac := by
  obtain ⟨i, hi, rfl, rfl⟩ := h.lookup_eq_some_iff.mp hm
  rcases s.step_cases e with ⟨ip, mac, he, -, hbook, -⟩ | ⟨-, -, hbook, -⟩
  · by_cases hs : (s.rolodex.book i).Stale s.now
    · refine .inr ⟨by rw [he]; rfl, ⟨i, hi, rfl, rfl, hs⟩, fun t ht => ?_⟩
      exact (h.heard i hi).lt_of_stale hs ht
    · refine .inl ((h.step e).lookup_eq_some_iff.mpr ⟨i, ?_⟩)
      rw [hbook, learnOrDispute_of_live h.unique ⟨hi, hs⟩]
      unfold claimed
      split_ifs <;> exact ⟨hi, rfl, rfl⟩
  · refine .inl ((h.step e).lookup_eq_some_iff.mpr ⟨i, ?_⟩)
    rw [hbook]
    exact ⟨hi, rfl, rfl⟩

theorem Inv.lookup_run (h : s.Inv) {ip : Ip4} {mac : Mac}
    (hm : rolodexLookup s.rolodex ip = some mac) (es : List NeighbourEvent) :
    rolodexLookup (run Neighbours.step s es).rolodex ip = some mac ∨
      ∃ fs e gs, es = fs ++ e :: gs ∧ (run Neighbours.step s fs).Forgets e ip mac := by
  induction es generalizing s with
  | nil => exact .inl hm
  | cons e es ih =>
    rcases h.lookup_step e hm with hm | hf
    · rcases ih (h.step e) hm with hend | ⟨fs, f, gs, rfl, hf⟩
      · exact .inl hend
      · exact .inr ⟨e :: fs, f, gs, rfl, hf⟩
    · exact .inr ⟨[], e, es, rfl, hf⟩

theorem Inv.step_of_conflict (h : s.Inv) {e : NeighbourEvent} {ip : Ip4}
    {mac : Mac} (he : e.claim = some (ip, mac)) (hl : (s.rolodex.book i).Live s.now)
    (hip : (s.rolodex.book i).ip = ip) (hmac : (s.rolodex.book i).mac ≠ mac) :
    (s.step e).rolodex.book i = { s.rolodex.book i with disputed := true } := by
  rcases s.step_cases e with ⟨_, _, he', -, hbook, -⟩ | ⟨he', -⟩
  · cases he.symm.trans he'
    rw [hbook, learnOrDispute_of_live h.unique hl, if_pos hip]
    exact if_neg hmac
  · cases he.symm.trans he'

end

/-- An address changes hands only after 6000 ticks, and an earlier claim only disputes it. -/
theorem address_changes_only_after_timeout (es : List NeighbourEvent) (ip : Ip4) :
    let s := run step {} es
    (∀ i j, (s.rolodex.book i).inUse = true → (s.rolodex.book j).inUse = true →
      (s.rolodex.book i).ip = (s.rolodex.book j).ip → i = j) ∧
    (∀ fs m₁ m₂, rolodexLookup s.rolodex ip = some m₁ →
      rolodexLookup (run step s fs).rolodex ip = some m₂ → m₁ ≠ m₂ →
      ∃ as e bs, fs = as ++ e :: bs ∧ (run step s as).Forgets e ip m₁) ∧
    (∀ e mac i, e.claim = some (ip, mac) → (s.rolodex.book i).Live s.now →
      (s.rolodex.book i).ip = ip → (s.rolodex.book i).mac ≠ mac →
      (s.step e).rolodex.book i = { s.rolodex.book i with disputed := true }) := by
  have h := inv_run es
  refine ⟨fun i j hi hj hij => ?_, fun fs m₁ m₂ h₁ h₂ hne => ?_, fun e mac i he hl hip hmac => ?_⟩
  · exact h.unique (key_eq_some_iff.mpr ⟨hi, hij⟩) (key_eq_some_iff.mpr ⟨hj, rfl⟩)
  · rcases h.lookup_run h₁ fs with hend | hf
    · exact absurd (Option.some.inj (hend.symm.trans h₂)) hne
    · exact hf
  · exact h.step_of_conflict he hl hip hmac

/-! ## When an entry is forgotten

Only a claim makes the Rolodex look at the age of its entries. -/

section

variable {s : Neighbours} {e : NeighbourEvent} {ip : Ip4} {mac : Mac} {w : Word}

/-- The place holds `ip` for `mac`, confirmed last at tick `w`. -/
def HeldSince (s : Neighbours) (i : Fin rolodexCapacity) (ip : Ip4) (mac : Mac) (w : Word) : Prop :=
  (s.rolodex.book i).inUse = true ∧ (s.rolodex.book i).ip = ip ∧ (s.rolodex.book i).mac = mac ∧
    (s.rolodex.book i).lastSeen = w

/-- A claim that comes when the confirmation at tick `w` is too old makes the Rolodex forget it. -/
def Spares (w : Word) (s : Neighbours) (e : NeighbourEvent) : Prop :=
  e.claim.isSome → ¬ rolodexEntryTimeoutTicks < s.now - w

instance (w : Word) (s : Neighbours) (e : NeighbourEvent) : Decidable (Spares w s e) :=
  inferInstanceAs (Decidable (_ → _))

theorem Inv.held_of_step (h : s.Inv) (hs : e.claim ≠ some (ip, mac))
    (hm : rolodexLookup (s.step e).rolodex ip = some mac) :
    ∃ i, s.HeldSince i ip mac (s.rolodex.book i).lastSeen ∧
      s.Spares (s.rolodex.book i).lastSeen e := by
  obtain ⟨i, hi, rfl, rfl⟩ := (h.step e).lookup_eq_some_iff.mp hm
  rcases s.step_cases e with ⟨ip, mac, he, -, hbook, -⟩ | ⟨he, -, hbook, -⟩
  · rw [hbook] at hi hs ⊢
    rcases live_or_learnt hi with hl | hnew
    · refine ⟨i, ⟨hl.1, ?_, ?_, rfl⟩, fun _ => hl.2⟩
      all_goals
        rw [learnOrDispute_of_live h.unique hl]
        unfold claimed
        split_ifs <;> rfl
    · rw [hnew, he] at hs
      exact absurd rfl hs
  · rw [hbook] at hi ⊢
    exact ⟨i, ⟨hi, rfl, rfl, rfl⟩, by simp [Spares, he]⟩

theorem HeldSince.step (hi : s.HeldSince i ip mac w) (h : s.Inv) (hs : e.claim ≠ some (ip, mac))
    (he : s.Spares w e) : (s.step e).HeldSince i ip mac w := by
  obtain ⟨hu, rfl, rfl, rfl⟩ := hi
  rcases s.step_cases e with ⟨ip, mac, hc, -, hbook, -⟩ | ⟨-, -, hbook, -⟩
  · rw [hc] at hs
    rw [HeldSince, hbook, learnOrDispute_of_live h.unique ⟨hu, he (by rw [hc]; rfl)⟩]
    unfold claimed
    split_ifs with hip hmac
    · exact absurd (by rw [hip, hmac]) hs
    · exact ⟨hu, rfl, rfl, rfl⟩
    · exact ⟨hu, rfl, rfl, rfl⟩
  · rw [HeldSince, hbook]
    exact ⟨hu, rfl, rfl, rfl⟩

theorem Inv.lookup_ne_run (h : s.Inv) (hm : rolodexLookup s.rolodex ip ≠ some mac)
    {es : List NeighbourEvent} (hs : ∀ e ∈ es, e.claim ≠ some (ip, mac)) :
    rolodexLookup (run Neighbours.step s es).rolodex ip ≠ some mac := by
  induction es generalizing s with
  | nil => exact hm
  | cons e es ih =>
    refine ih (h.step e) (fun hstep => hm ?_) fun e' he' => hs e' (List.mem_cons_of_mem e he')
    obtain ⟨i, ⟨hi, hip, hmac, -⟩, -⟩ := h.held_of_step (hs e List.mem_cons_self) hstep
    exact h.lookup_eq_some_iff.mpr ⟨i, hi, hip, hmac⟩

theorem HeldSince.lookup_run_iff (hi : s.HeldSince i ip mac w) (h : s.Inv)
    {es : List NeighbourEvent} (hs : ∀ e ∈ es, e.claim ≠ some (ip, mac)) :
    rolodexLookup (run Neighbours.step s es).rolodex ip = some mac ↔
      Along Neighbours.step (Spares w) s es := by
  induction es generalizing s with
  | nil => exact iff_of_true (h.lookup_eq_some_iff.mpr ⟨i, hi.1, hi.2.1, hi.2.2.1⟩) trivial
  | cons e es ih =>
    have hse := hs e List.mem_cons_self
    have hses := fun e' he' => hs e' (List.mem_cons_of_mem e he')
    by_cases he : s.Spares w e
    · rw [run_cons, ih (hi.step h hse he) (h.step e) hses]
      exact (and_iff_right he).symm
    · refine iff_of_false ((h.step e).lookup_ne_run (fun hm => he ?_) hses) fun ha => he ha.1
      -- the book has one entry for the address, and the claim found it too old
      obtain ⟨j, hj, hspared⟩ := h.held_of_step hse hm
      obtain rfl : i = j := h.unique (key_eq_some_iff.mpr ⟨hi.1, hi.2.1⟩)
        (key_eq_some_iff.mpr ⟨hj.1, hj.2.1⟩)
      rwa [hi.2.2.2] at hspared

theorem Inv.held_of_claim (h : s.Inv) (he : e.claim = some (ip, mac))
    (hm : rolodexLookup (s.step e).rolodex ip = some mac) :
    ∃ i, (s.step e).HeldSince i ip mac s.now := by
  obtain ⟨i, hi, hip, hmac⟩ := (h.step e).lookup_eq_some_iff.mp hm
  refine ⟨i, hi, hip, hmac, ?_⟩
  rcases s.step_cases e with ⟨_, _, hc, -, hbook, -⟩ | ⟨hc, -⟩
  · cases hc.symm.trans he
    rw [hbook] at hi hip hmac ⊢
    rcases live_or_learnt hi with hl | hnew
    · rw [learnOrDispute_of_live h.unique hl] at hip hmac ⊢
      split_ifs at hip hmac ⊢ with hsame
      · unfold claimed at hmac ⊢
        split_ifs at hmac ⊢ with hold
        · rfl
        · exact absurd hmac hold
      · exact absurd hip hsame
    · rw [hnew]
  · cases hc.symm.trans he

end

/-- An old entry is not returned exactly if some claim came when it was old. -/
theorem stale_entry_not_returned_iff (es : List NeighbourEvent) (e : NeighbourEvent) (ip : Ip4)
    (mac : Mac) (he : e.claim = some (ip, mac))
    (hm : rolodexLookup (run step {} (es ++ [e])).rolodex ip = some mac)
    (fs : List NeighbourEvent) (hs : ∀ f ∈ fs, f.claim ≠ some (ip, mac)) :
    let s := run step {} (es ++ [e])
    let s' := run step s fs
    (s.clock + rolodexEntryTimeoutTicks.toNat < s'.clock → rolodexLookup s'.rolodex ip ≠ some mac) ↔
      (s.clock + rolodexEntryTimeoutTicks.toNat < s'.clock → ¬ Along step (Spares s.now) s fs) := by
  intro s s'
  have hs' : s = (run step {} es).step e := run_append ..
  have hnow : s.now = (run step {} es).now := by
    rcases (run step {} es).step_cases e with ⟨_, _, -, hclock, -⟩ | ⟨hc, -⟩
    · rw [hs', now, hclock, now]
    · cases hc.symm.trans he
  obtain ⟨i, hi⟩ := (inv_run es).held_of_claim he (hs' ▸ hm)
  rw [← hs', ← hnow] at hi
  rw [Ne, hi.lookup_run_iff (inv_run (es ++ [e])) hs]

theorem silent_entry_forgotten : rolodexLookup (run step {} [.learn .zero {}, .wait 6001,
      .learn ⟨10, 0, 2, 2⟩ {}]).rolodex .zero ≠ some {} :=
  (stale_entry_not_returned_iff [] (.learn .zero {}) .zero {} rfl (by decide +kernel)
    [.wait 6001, .learn ⟨10, 0, 2, 2⟩ {}] (by decide)).mpr (by decide +kernel) (by decide)

theorem silent_entry_returned : (run step {} [.learn .zero {}, .wait 6001]).clock = 6001 ∧
      (run step {} [.learn .zero {}, .wait 6001]).claims = [(0, .zero, {})] ∧
      rolodexLookup (run step {} [.learn .zero {}, .wait 6001]).rolodex .zero = some {} := by
  decide +kernel

end Neighbours

end Aevros
