import Aevros.Library.Runs
import Aevros.Library.Keyed
import Aevros.Office.Admission

/-! # Rules of the guest list

The guest list is a map from addresses to rules as long as `guestlist_set` leaves no end of an
earlier rule behind and no end wraps.
-/

namespace Aevros

open Keyed GuestlistEntry Option GuestList Function Runs

def GuestlistEntry.key (e : GuestlistEntry) : Option Ip4 := tag e.inUse e.ip

def GuestlistEntry.write (e : GuestlistEntry) (ip : Ip4) (action : GuestlistVerdict) :
    GuestlistEntry :=
  { e with ip := ip, action := action, inUse := true }

namespace GuestList

variable (l : GuestList)

def entry (ip : Ip4) : Option GuestlistEntry := get key l ip

def place (ip : Ip4) : Option (Fin guestlistCapacity) :=
  Keyed.place key l ip

theorem findEntry_eq (ip : Ip4) : l.findEntry ip = find GuestlistEntry.key l ip :=
  find_tag GuestlistEntry.inUse GuestlistEntry.ip l ip

theorem free_eq : (Fin.find? fun i => !(l i).inUse) = free key l :=
  free_tag inUse ip l

end GuestList

variable {l : GuestList}

theorem guestlistSet_eq (l : GuestList) (ip : Ip4) (action : GuestlistVerdict) :
    guestlistSet l ip action = match l.place ip with
      | some i => (true, update l i ((l i).write ip action))
      | none => (false, l) := by
  unfold guestlistSet GuestList.place Keyed.place
  rw [findEntry_eq]
  cases hf : find GuestlistEntry.key l ip with
  | some i =>
    have hkey : (l i).key = some ip := key_of_find hf
    have hi := tag_eq_some_iff.mp hkey
    simp only [GuestlistEntry.write, ← hi.1, ← hi.2]
  | none =>
    simp only [free_eq]
    cases free GuestlistEntry.key l <;> rfl

theorem guestlistSetTimed_eq (hu : Keyed.Unique GuestlistEntry.key l) (now : Word) (ip : Ip4)
    (action : GuestlistVerdict) (duration : Word) :
    guestlistSetTimed now l ip action duration = match l.place ip with
      | some i => (true, update l i { (l i).write ip action with expiresAtTick := now + duration })
      | none => (false, l) := by
  unfold guestlistSetTimed
  rw [guestlistSet_eq]
  cases hp : l.place ip with
  | none => rfl
  | some i =>
    have hx : ((l i).write ip action).key = some ip := rfl
    have hf : GuestList.findEntry (update l i ((l i).write ip action)) ip = some i := by
      rw [findEntry_eq, (hu.write hp hx).find_eq_some_iff, update_self, hx]
    simp only [hf, update_self, update_idem]

theorem entry_guestlistClear (hu : Unique GuestlistEntry.key l) (ip ip' : Ip4) :
    Unique GuestlistEntry.key (guestlistClear l ip) ∧
      (guestlistClear l ip).entry ip' = if ip' = ip then none else l.entry ip' := by
  unfold guestlistClear
  rw [findEntry_eq]
  cases hf : find GuestlistEntry.key l ip with
  | some i =>
    have hi := key_of_find hf
    have hx : ∀ k, GuestlistEntry.key { l i with inUse := false } = some k →
        (l i).key = some k ∨ ∀ j, (l j).key ≠ some k := by simp [GuestlistEntry.key]
    refine ⟨hu.update hx, ?_⟩
    unfold GuestList.entry
    rw [hu.get_update hx, hi]
    simp [GuestlistEntry.key, eq_comm]
  | none =>
    refine ⟨hu, ?_⟩
    split_ifs with hip
    · rw [hip, GuestList.entry, Keyed.get, hf, map_none]
    · rfl

def GuestlistEntry.lasts (e : GuestlistEntry) (now : Word) : Bool :=
  e.expiresAtTick = 0 || now < e.expiresAtTick

theorem GuestlistEntry.lasts_iff {e : GuestlistEntry} {now : Word} : e.lasts now = true ↔
    e.expiresAtTick.toNat = 0 ∨ now.toNat < e.expiresAtTick.toNat := by
  rw [lasts, Bool.or_eq_true, decide_eq_true_eq, decide_eq_true_eq, ← BitVec.toNat_inj]
  rfl

theorem shed_guestlistTick (l : GuestList) (now : Word) : Shed key
    (fun e => e.lasts now = true) l (guestlistTick now l) := by
  constructor
  · intro i h
    rw [lasts, Bool.or_eq_true, decide_eq_true_eq, decide_eq_true_eq] at h
    unfold guestlistTick
    split_ifs with h₀ h₁
    · rfl
    · exact absurd h₁ (BitVec.not_le.mpr (h.resolve_left fun h => h₀ (.inr h)))
    · rfl
  · intro i h
    rw [lasts, Bool.or_eq_true, decide_eq_true_eq, decide_eq_true_eq, not_or, BitVec.not_lt] at h
    rw [key]
    unfold guestlistTick
    split_ifs with h₀
    · simpa using h₀.resolve_right h.1
    · rfl
    · exact absurd h.2 ‹_›

theorem entry_guestlistTick (hu : Unique key l) (now : Word) (ip : Ip4) :
    Unique key (guestlistTick now l) ∧
      (guestlistTick now l).entry ip = (l.entry ip).filter fun e => e.lasts now := by
  refine ⟨(shed_guestlistTick l now).unique hu, ?_⟩
  ext e
  rw [filter_eq_some_iff]
  exact (shed_guestlistTick l now).get_eq_some_iff hu

structure Rule where
  action : GuestlistVerdict
  due : Option ℕ
  deriving DecidableEq

structure Post where
  clock : ℕ := 0
  list : GuestList := fun _ => {}
  rules : Ip4 → Option Rule := fun _ => none

inductive RuleCall
  | set (ip : Ip4) (action : GuestlistVerdict)
  | setTimed (ip : Ip4) (action : GuestlistVerdict) (duration : Word)
  | clear (ip : Ip4)
  | tick
  | clock (ticks : ℕ)
  deriving DecidableEq

namespace Post

variable (s : Post)

def now : Word := BitVec.ofNat 32 s.clock

def install (succeeded : Bool) (ip : Ip4) (r : Rule) : Ip4 → Option Rule :=
  if succeeded then update s.rules ip (some r) else s.rules

def step (s : Post) : RuleCall → Post
  | .set ip action =>
    let r := guestlistSet s.list ip action
    { s with list := r.2, rules := s.install r.1 ip ⟨action, none⟩ }
  | .setTimed ip action duration =>
    let r := guestlistSetTimed s.now s.list ip action duration
    { s with list := r.2, rules := s.install r.1 ip ⟨action, some (s.clock + duration.toNat)⟩ }
  | .clear ip =>
    { s with list := guestlistClear s.list ip, rules := update s.rules ip none }
  | .tick =>
    { s with
      list := guestlistTick s.now s.list
      rules := fun ip => (s.rules ip).filter fun r => r.due.all fun d => s.clock < d }
  | .clock ticks => { s with clock := s.clock + ticks }

/-- Every check gives the action of the rule in the map. -/
def Refines : Prop := ∀ ip, guestlistCheck s.list ip = ((s.rules ip).map Rule.action).getD .noRule ∧
    ((s.list.findEntry ip).isSome ↔ (s.rules ip).isSome)

/-- The list is the map, now and after a tick at any later time. -/
def Lasting : Prop :=
  s.Refines ∧ ∀ d, s.clock + d < 2 ^ 32 → ((s.step (.clock d)).step .tick).Refines

/-- The tick counter does not wrap around: ticks do not decrease. -/
def Timely (s : Post) : RuleCall → Prop
  | .clock ticks => s.clock + ticks < 2 ^ 32
  | _ => True

/-- A permanent rule does not meet an old end, and a timed one ends in the counter's range. -/
def Sound (s : Post) : RuleCall → Prop
  | .set ip _ => ∀ i ∈ s.list.place ip, (s.list i).expiresAtTick = 0
  | .setTimed ip _ duration => (s.list.place ip).isSome →
      0 < s.clock + duration.toNat ∧ s.clock + duration.toNat ≤ 2 ^ 32
  | _ => True

end Post

/-- The entry carries out the rule. -/
def Rule.CarriedBy (r : Rule) (e : GuestlistEntry) : Prop :=
  e.action = r.action ∧ match r.due with
    | none => e.expiresAtTick = 0
    | some d => (0 < d ∧ d ≤ 2 ^ 32) ∧ e.expiresAtTick = BitVec.ofNat 32 d

structure Post.Coupled (s : Post) : Prop where
  unique : Unique key s.list
  carried : ∀ ip, Rel (fun e r => r.CarriedBy e) (s.list.entry ip) (s.rules ip)
  clock_lt : s.clock < 2 ^ 32

theorem Post.refines_iff (s : Post) : s.Refines ↔ ∀ ip,
    ((s.list.entry ip).map GuestlistEntry.action).getD .noRule =
      ((s.rules ip).map Rule.action).getD .noRule ∧
    ((s.list.entry ip).isSome ↔ (s.rules ip).isSome) := by
  refine forall_congr' fun ip => ?_
  have hcheck : guestlistCheck s.list ip =
      ((s.list.entry ip).map GuestlistEntry.action).getD .noRule := by
    unfold guestlistCheck GuestList.entry Keyed.get
    rw [← findEntry_eq]
    cases s.list.findEntry ip <;> rfl
  have hsome : (s.list.findEntry ip).isSome = (s.list.entry ip).isSome := by
    rw [GuestList.entry, Keyed.get, isSome_map, findEntry_eq]
  rw [hcheck, hsome]

theorem Post.Coupled.refines {s : Post} (h : s.Coupled) : s.Refines := by
  rw [Post.refines_iff]
  intro ip
  have hc := h.carried ip
  revert hc
  cases s.list.entry ip <;> cases s.rules ip <;> intro hc
  · simp
  · cases hc
  · cases hc
  · cases hc with
    | some hc => simp [hc.1]

theorem Rule.CarriedBy.lasts {r : Rule} {e : GuestlistEntry} (h : r.CarriedBy e) {clock : ℕ}
    (hclock : clock < 2 ^ 32) :
    e.lasts (BitVec.ofNat 32 clock) = r.due.all fun d => clock < d := by
  obtain ⟨-, h⟩ := h
  unfold GuestlistEntry.lasts
  cases hd : r.due with
  | none =>
    rw [hd] at h
    simp [h]
  | some d =>
    rw [hd] at h
    obtain ⟨⟨h₀, h₁⟩, he⟩ := h
    have hz : e.expiresAtTick = 0 ↔ d = 2 ^ 32 := by
      rw [he, ← BitVec.toNat_inj]
      constructor
      · intro hm
        have : d % 2 ^ 32 = 0 := hm
        omega
      · rintro rfl
        rfl
    rw [Bool.eq_iff_iff]
    simp only [all_some, Bool.or_eq_true, decide_eq_true_eq, hz]
    rcases Nat.lt_or_eq_of_le h₁ with hlt | rfl
    · rw [he, BitVec.lt_def, BitVec.toNat_ofNat, BitVec.toNat_ofNat]
      omega
    · exact iff_of_true (.inl rfl) hclock

def Post.written (s : Post) (i : Fin guestlistCapacity) (ip : Ip4) (x : GuestlistEntry) (r : Rule) :
    Post :=
  { s with list := update s.list i x, rules := update s.rules ip (some r) }

theorem Post.step_set (s : Post) (ip : Ip4) (action : GuestlistVerdict) :
    s.step (.set ip action) = match s.list.place ip with
      | some i => s.written i ip ((s.list i).write ip action) ⟨action, none⟩
      | none => s := by
  simp only [Post.step, guestlistSet_eq]
  cases s.list.place ip <;> rfl

theorem Post.step_setTimed {s : Post} (hu : Unique key s.list) (ip : Ip4)
    (action : GuestlistVerdict) (duration : Word) :
    s.step (.setTimed ip action duration) = match s.list.place ip with
      | some i => s.written i ip
          { (s.list i).write ip action with expiresAtTick := s.now + duration }
          ⟨action, some (s.clock + duration.toNat)⟩
      | none => s := by
  simp only [Post.step, guestlistSetTimed_eq hu]
  cases s.list.place ip <;> rfl

namespace Post.Coupled

variable {s : Post} {ip : Ip4} {i : Fin guestlistCapacity} {x : GuestlistEntry} (h : s.Coupled)

include h

theorem write (hp : s.list.place ip = some i) (hx : x.key = some ip) {r : Rule}
    (hr : r.CarriedBy x) : (s.written i ip x r).Coupled where
  unique := h.unique.write hp hx
  carried ip' := by
    simp only [Post.written]
    rw [GuestList.entry, h.unique.get_write hp hx, update_apply]
    split_ifs
    · exact .some hr
    · exact h.carried ip'
  clock_lt := h.clock_lt

theorem clear (ip : Ip4) : (s.step (.clear ip)).Coupled where
  unique := (entry_guestlistClear h.unique ip ip).1
  carried ip' := by
    simp only [Post.step]
    rw [(entry_guestlistClear h.unique ip ip').2, update_apply]
    split_ifs
    · exact .none
    · exact h.carried ip'
  clock_lt := h.clock_lt

theorem tick : (s.step .tick).Coupled where
  unique := (entry_guestlistTick h.unique s.now .zero).1
  carried ip := by
    simp only [Post.step]
    rw [(entry_guestlistTick h.unique s.now ip).2]
    have hc := h.carried ip
    revert hc
    cases s.list.entry ip <;> cases s.rules ip <;> intro hc
    · exact .none
    · cases hc
    · cases hc
    · cases hc with
      | some hc =>
        rw [filter_some, filter_some, Post.now, hc.lasts h.clock_lt]
        split_ifs
        · exact .some hc
        · exact .none
  clock_lt := h.clock_lt

theorem clock {d : ℕ} (hd : s.clock + d < 2 ^ 32) : (s.step (.clock d)).Coupled :=
  ⟨h.unique, h.carried, hd⟩

theorem step {e : RuleCall} (ht : s.Timely e) (hs : s.Sound e) : (s.step e).Coupled := by
  cases e with
  | set ip action =>
    rw [Post.step_set]
    cases hp : s.list.place ip with
    | none => exact h
    | some i => exact h.write hp rfl ⟨rfl, hs i hp⟩
  | setTimed ip action duration =>
    rw [Post.step_setTimed h.unique]
    cases hp : s.list.place ip with
    | none => exact h
    | some i =>
      refine h.write hp rfl ⟨rfl, hs (by simp [hp]), ?_⟩
      rw [Post.now, BitVec.ofNat_add, BitVec.ofNat_toNat, BitVec.setWidth_eq]
  | clear ip => exact h.clear ip
  | tick => exact h.tick
  | clock ticks => exact h.clock ht

theorem lasting : s.Lasting :=
  ⟨h.refines, fun _ hd => (h.clock hd).tick.refines⟩

end Post.Coupled

theorem Post.Coupled.lasts_of_lasting {s : Post} (h : s.Coupled) {ip : Ip4}
    {i : Fin guestlistCapacity} {x : GuestlistEntry} {r : Rule} (hp : s.list.place ip = some i)
    (hx : x.key = some ip) (hl : (s.written i ip x r).Lasting) {d : ℕ}
    (hd : s.clock + d < 2 ^ 32) :
    x.lasts (BitVec.ofNat 32 (s.clock + d)) = r.due.all fun n => s.clock + d < n := by
  have ht := ((Post.refines_iff _).mp (hl.2 d hd) ip).2
  simp only [Post.step, Post.written] at ht
  rw [(entry_guestlistTick (h.unique.write hp hx) _ ip).2, GuestList.entry,
    h.unique.get_write hp hx, if_pos rfl, update_self, isSome_filter,
    isSome_filter] at ht
  exact Bool.eq_iff_iff.mpr ht

theorem Post.Coupled.sound_of_lasting {s : Post} (h : s.Coupled) {e : RuleCall}
    (hl : (s.step e).Lasting) : s.Sound e := by
  have hclock := h.clock_lt
  cases e with
  | set ip action =>
    intro i hp
    by_contra hx
    rw [Post.step_set, hp] at hl
    -- the rule is gone after a tick at the end that the entry kept
    have hend := h.lasts_of_lasting hp rfl hl
      (d := (s.list i).expiresAtTick.toNat - s.clock) (by omega)
    rw [all_none, lasts_iff, BitVec.toNat_ofNat, Nat.mod_eq_of_lt (by omega)] at hend
    rcases hend with hend | hend
    · exact hx (BitVec.eq_of_toNat_eq hend)
    · have : s.clock + ((s.list i).expiresAtTick.toNat - s.clock) <
          (s.list i).expiresAtTick.toNat := hend
      omega
  | setTimed ip action duration =>
    intro hsome
    obtain ⟨i, hp⟩ := isSome_iff_exists.mp hsome
    rw [Post.step_setTimed h.unique, hp] at hl
    -- a tick right now removes exactly one of the entry and the rule
    have hend := h.lasts_of_lasting hp rfl hl (d := 0) (by omega)
    have hmod : (s.now + duration).toNat = (s.clock + duration.toNat) % 2 ^ 32 := by
      rw [Post.now, BitVec.toNat_add, BitVec.toNat_ofNat, Nat.mod_add_mod]
    rw [Bool.eq_iff_iff, lasts_iff, all_some, decide_eq_true_eq, BitVec.toNat_ofNat, hmod] at hend
    omega
  | clear ip => trivial
  | tick => trivial
  | clock ticks => trivial

/-- The list is the map in every state exactly if every step is sound. -/
theorem guestlist_map_iff_sound (es : List RuleCall) (ht : Along Post.step Post.Timely {} es) :
    Along Post.step (fun s e => (s.step e).Lasting) {} es ↔ Along Post.step Post.Sound {} es := by
  have hboot : Post.Coupled {} := by
    refine ⟨fun i j k hi => by simp [key] at hi, fun ip => ?_, by norm_num⟩
    exact .none
  refine along_congr (I := Post.Coupled) (fun s e h ht hs => h.step ht hs) ?_ hboot ht
  intro s e h ht
  exact ⟨h.sound_of_lasting, fun hs => (h.step ht hs).lasting⟩

theorem guestlist_map_of_timed_rule : Along Post.step (fun s e => (s.step e).Lasting) {}
      [.setTimed ⟨10, 0, 2, 2⟩ .denied 100, .clock 100, .tick] := by
  refine (guestlist_map_iff_sound _ ?_).mpr ?_
  · exact ⟨trivial, show 0 + 100 < 2 ^ 32 by norm_num, trivial, trivial⟩
  · exact ⟨fun _ => by decide, trivial, trivial, trivial⟩

theorem permanent_rule_expires :
    let s := run Post.step {} [.setTimed ⟨10, 0, 2, 2⟩ .denied 100,
      .set ⟨10, 0, 2, 2⟩ .denied, .clock 100, .tick]
    guestlistCheck s.list ⟨10, 0, 2, 2⟩ = .noRule ∧
      s.rules ⟨10, 0, 2, 2⟩ = some ⟨.denied, none⟩ ∧ ¬ s.Refines := by
  intro s
  have hcheck : guestlistCheck s.list ⟨10, 0, 2, 2⟩ = .noRule := by decide +kernel
  have hrule : s.rules ⟨10, 0, 2, 2⟩ = some ⟨.denied, none⟩ := by decide +kernel
  refine ⟨hcheck, hrule, fun h => ?_⟩
  have := (h ⟨10, 0, 2, 2⟩).1
  rw [hcheck] at this
  cases this

end Aevros
