import Aevros.Library.Pieces
import Aevros.Library.Runs
import Aevros.Library.Wrap
import Aevros.Six.Slots

/-! # Reassembly gives back the packet

Whatever the order of the fragments, `fragment6_receive` returns 1 once for the packet, on the last
fragment that is missing, and hands out what was cut.
-/

namespace Aevros

open Keyed Fragment List Reassembly Pieces BitVec Bool

def Fragment.piece (f : Fragment) : Piece Byte := ⟨f.offsetBytes, f.data, !f.moreFragments⟩

def Fragment.bytes (f : Fragment) : List Byte :=
  [f.nextHeader, 0] ++ bytes16 (BitVec.ofNat 16 (f.offsetUnits * 8 + f.moreFragments.toNat)) ++
    bytes32 f.id ++ f.data

/-- The fragments of a packet that is short enough, in order. -/
structure CutInto (nextHeader : Byte) (payload : List Byte) (fs : List Fragment) : Prop where
  length_le : payload.length ≤ fragment6MaxTotalBytes
  agree : ∀ f ∈ fs, f.nextHeader = nextHeader
  cut : Cut 8 0 payload (fs.map piece)

theorem Fragment.mem_units_iff {f : Fragment} (hf : f.piece.stop ≤ fragment6MaxTotalBytes)
    {u : ℕ} : f.offsetUnits ≤ u ∧ u < f.endUnit ↔ f.piece.Covers 8 u := by
  have hend : f.endUnit = (f.piece.stop + 7) / 8 := by
    refine Nat.min_eq_left (Nat.le_of_lt_succ ((Nat.div_lt_iff_lt_mul (by decide)).mpr ?_))
    exact Nat.lt_succ_of_le (Nat.add_le_add_right hf 7)
  rw [hend, Piece.Covers, piece, offsetBytes, Nat.mul_div_cancel _ (by decide)]

theorem Piece.Covers.lt_units {p : Piece Byte} {u : ℕ} (h : p.Covers 8 u)
    (hp : p.stop ≤ fragment6MaxTotalBytes) : u < units := by
  have hlt := ((lt_units_iff (by decide)).mp h.2).trans_le hp
  exact Nat.lt_of_mul_lt_mul_left (a := 8) hlt

theorem Reassembly.bitTest_copy {f : Fragment} (hf : f.piece.stop ≤ fragment6MaxTotalBytes)
    (s : Reassembly) {u : ℕ} (hu : u < units) :
    bitTest (s.copy f).unitBitmap u = true ↔
      f.piece.Covers 8 u ∨ bitTest s.unitBitmap u = true := by
  have hmem : ∀ v, v ∈ range' f.offsetUnits (f.endUnit - f.offsetUnits) ↔ f.piece.Covers 8 v := by
    intro v
    rw [← mem_units_iff hf, mem_range'_1]
    omega
  dsimp only [copy]
  rw [bitTest_foldl_bitSet _ (fun v hv => Piece.Covers.lt_units ((hmem v).mp hv) hf) hu, hmem]

structure Reassembly.Holds (payload : List Byte) (s : Reassembly) (ds : List Fragment) : Prop where
  marked : ∀ u < units, bitTest s.unitBitmap u = true ↔ ∃ f ∈ ds, f.piece.Covers 8 u
  copied : ∀ f ∈ ds, ∀ j : Fin fragment6MaxTotalBytes, f.piece.start ≤ j → j < f.piece.stop →
    payload[(j : ℕ)]? = some (s.buf j)
  last_iff : s.haveLast = true ↔ ∃ f ∈ ds, f.moreFragments = false
  total : s.haveLast = true → s.totalLen = payload.length

namespace CutInto

variable {nextHeader : Byte} {payload : List Byte} {fs ds rs : List Fragment} {f : Fragment}
  {s : Reassembly}

section

variable (h : CutInto nextHeader payload fs)

include h

theorem stop_le (hf : f ∈ fs) : f.piece.stop ≤ fragment6MaxTotalBytes := by
  have := h.cut.stop_le (mem_map_of_mem (f := piece) hf)
  have := h.length_le
  omega

theorem exists_needed : ∃ f ∈ fs, f.piece.Needed := by
  obtain ⟨p, hp, hl⟩ := h.cut.exists_last
  obtain ⟨f, hf, rfl⟩ := mem_map.mp hp
  exact ⟨f, hf, .inr hl⟩

theorem apart (hperm : (ds ++ f :: rs).Perm fs) : ∀ g ∈ ds, Piece.Apart 8 g.piece f.piece := by
  have hpair := h.cut.pairwise_apart (by decide) (dvd_zero 8)
  rw [← (hperm.map piece).pairwise_iff Piece.Apart.symm, map_append, pairwise_append] at hpair
  intro g hg
  exact hpair.2.2 _ (mem_map_of_mem hg) _ (mem_map_of_mem mem_cons_self)

theorem accepted (hs : s.Holds payload ds) (hperm : (ds ++ f :: rs).Perm fs) :
    rangeOverlaps s.unitBitmap f.offsetUnits f.endUnit = false ∧
      (f.moreFragments = false → s.haveLast = false) := by
  have hf : f.piece.stop ≤ fragment6MaxTotalBytes := h.stop_le (hperm.mem_iff.mp (by simp))
  constructor
  · rw [eq_false_iff, Ne, rangeOverlaps_iff]
    rintro ⟨u, hu, hbit⟩
    have hcov := (mem_units_iff hf).mp hu
    obtain ⟨g, hg, hgu⟩ := (hs.marked u (Piece.Covers.lt_units hcov hf)).mp hbit
    exact (h.apart hperm g hg).1 u hgu hcov
  · intro hlast
    rw [eq_false_iff, Ne, hs.last_iff]
    rintro ⟨g, hg, hgl⟩
    exact (h.apart hperm g hg).2 ⟨by simp [piece, hgl], by simp [piece, hlast]⟩

theorem getElem?_payload (hf : f ∈ fs) {j : ℕ} (hj : f.piece.start ≤ j) (hj' : j < f.piece.stop) :
    payload[j]? = some (f.data.getD (j - f.offsetBytes) 0) := by
  have hlt : j - f.offsetBytes < f.data.length := Nat.sub_lt_left_of_lt_add hj hj'
  have hdata := h.cut.getElem?_data (mem_map_of_mem (f := piece) hf) hlt
  have hpos : f.piece.start - 0 + (j - f.offsetBytes) = j := Nat.add_sub_cancel' hj
  rw [hpos] at hdata
  rw [← hdata]
  simp [piece, hlt]

variable (hs : s.Holds payload ds)

include hs

theorem holds_add (hperm : (ds ++ f :: rs).Perm fs) :
    ((s.copy f).noteLast f).Holds payload (ds ++ [f]) := by
  have hf : f ∈ fs := hperm.mem_iff.mp (by simp)
  have hstop := h.stop_le hf
  rw [noteLast_eq]
  refine ⟨?_, ?_, ?_, ?_⟩
  · intro u hu
    simp only [bitTest_copy hstop s hu, hs.marked u hu, mem_append,
      mem_singleton, or_and_right, exists_or, exists_eq_left]
    exact or_comm
  · intro g hg j hj hj'
    dsimp only [copy]
    split_ifs with hin
    · exact h.getElem?_payload hf hin.1 hin.2
    · obtain hg | hg := mem_append.mp hg
      · exact hs.copied g hg j hj hj'
      · obtain rfl := mem_singleton.mp hg
        exact absurd ⟨hj, hj'⟩ hin
  · simp only [copy, or_eq_true, hs.last_iff, not_eq_true',
      mem_append, mem_singleton, or_and_right, exists_or, exists_eq_left]
  · dsimp only [copy]
    cases hm : f.moreFragments with
    | true => simpa using hs.total
    | false =>
      intro _
      have hlast : f.piece.last = true := by simp [piece, hm]
      exact (h.cut.stop_of_last (mem_map_of_mem hf) hlast).trans (Nat.zero_add _)

theorem complete_iff (hperm : (ds ++ rs).Perm fs) :
    s.complete = true ↔ ∀ f ∈ rs, ¬f.piece.Needed := by
  have hmap : (ds.map piece ++ rs.map piece).Perm (fs.map piece) := by
    rw [← map_append]
    exact hperm.map _
  have hcut := h.cut.complete_iff (by decide) hmap
  have hlast : (∃ f ∈ ds, f.moreFragments = false) ↔ ∃ p ∈ ds.map piece, p.last = true := by
    simp [piece]
  rw [forall_mem_map] at hcut
  rw [← hcut, ← hlast, ← hs.last_iff, complete, and_eq_true]
  refine and_congr_right fun hl => ?_
  rw [neededUnits, hs.total hl, all_eq_true]
  refine forall_congr' fun u => ?_
  rw [mem_range]
  refine imp_congr_right fun hu => ?_
  have hlt : u < units := by
    have hbytes : 8 * u < payload.length := (lt_units_iff (by decide)).mp hu
    exact Nat.lt_of_mul_lt_mul_left (a := 8) (hbytes.trans_le h.length_le)
  rw [hs.marked u hlt]
  simp

theorem output_eq (hperm : (ds ++ rs).Perm fs) (hc : s.complete = true) :
    s.output = ⟨s.nextHeader, payload.length, payload⟩ := by
  have hneed := (h.complete_iff hs hperm).mp hc
  have hl : s.haveLast = true := (and_eq_true_iff.mp hc).1
  rw [output, hs.total hl, Reassembled.mk.injEq]
  refine ⟨rfl, rfl, ext_getElem? fun j => ?_⟩
  by_cases hj : j < payload.length
  · obtain ⟨p, hp, hle, hlt⟩ := h.cut.exists_covering hj
    rw [Nat.zero_add] at hle hlt
    obtain ⟨f, hf, rfl⟩ := mem_map.mp hp
    have hds : f ∈ ds := by
      have hmem := mem_append.mp (hperm.mem_iff.mpr hf)
      exact hmem.resolve_right fun hr => hneed f hr (Piece.needed_of_lt (hle.trans_lt hlt))
    have hj' : j < fragment6MaxTotalBytes := hj.trans_le h.length_le
    rw [hs.copied f hds ⟨j, hj'⟩ hle hlt, List.getElem?_take_of_lt hj, List.getElem?_ofFn,
      dif_pos hj']
  · rw [List.getElem?_take_eq_none (by omega), List.getElem?_eq_none (by omega)]

theorem take_eq (hperm : (ds ++ f :: rs).Perm fs) : ((∀ g ∈ rs, ¬g.piece.Needed) → s.take f =
      (some ⟨s.nextHeader, payload.length, payload⟩, ((s.copy f).noteLast f).abortSlot)) ∧
    ((∃ g ∈ rs, g.piece.Needed) → s.take f = (none, (s.copy f).noteLast f)) := by
  obtain ⟨hover, hconflict⟩ := h.accepted hs hperm
  have hadd := h.holds_add hs hperm
  have hperm' : (ds ++ [f] ++ rs).Perm fs := by simpa using hperm
  have hcomplete := h.complete_iff hadd hperm'
  have htake : s.take f = if ((s.copy f).noteLast f).complete then
      (some ((s.copy f).noteLast f).output, ((s.copy f).noteLast f).abortSlot)
      else (none, (s.copy f).noteLast f) := by
    unfold Reassembly.take
    rw [hover, if_neg Bool.false_ne_true, if_neg (by simpa using hconflict)]
  rw [htake]
  constructor
  · intro hnone
    have hc := hcomplete.mpr hnone
    rw [if_pos hc, h.output_eq hadd hperm' hc, noteLast_eq]
    rfl
  · rintro ⟨g, hg, hneed⟩
    exact if_neg fun hc => hcomplete.mp hc g hg hneed

end

end CutInto

theorem Reassembly.holds_create (payload : List Byte) (now : Word) (src dst : Ip6) (f : Fragment)
    (s : Reassembly) : (s.create now src dst f).Holds payload [] := by
  refine ⟨fun u _ => ?_, ?_, ?_, ?_⟩ <;> simp [create, bitTest]

theorem Reassembly.take_of_more {s : Reassembly} {f : Fragment} (hf : f.moreFragments = true)
    (hs : s.haveLast = false) : (s.take f).1 = none ∧ (s.take f).2.haveLast = false := by
  have hlast : ((s.copy f).noteLast f).haveLast = false := by
    simp [noteLast, hf, copy, hs]
  have hcomplete : ((s.copy f).noteLast f).complete = false := by
    rw [complete, hlast, Bool.false_and]
  unfold take
  split
  · exact ⟨rfl, hs⟩
  · rw [hs, if_neg (by simp)]
    dsimp only
    rw [hcomplete]
    exact ⟨rfl, hlast⟩

inductive FragmentCall where
  | receive (time : ℕ) (src dst : Ip6) (p : Packet)
  | tick (time : ℕ)

namespace FragmentCall

def time : FragmentCall → ℕ
  | .receive t _ _ _ => t
  | .tick t => t

def fragment : FragmentCall → Option (FragmentKey × Fragment)
  | .receive _ src dst p => (Fragment.read p).map fun f => ((src, dst, f.id), f)
  | .tick _ => none

def own (k : FragmentKey) (c : FragmentCall) : Option Fragment :=
  c.fragment.bind fun x => if x.1 = k then some x.2 else none

theorem own_eq_some_iff {k : FragmentKey} {c : FragmentCall} {f : Fragment} :
    c.own k = some f ↔ c.fragment = some (k, f) := by
  rw [own, Option.bind_eq_some_iff]
  constructor
  · rintro ⟨⟨k', g⟩, hx, hg⟩
    split_ifs at hg with hk
    cases hg
    exact hk ▸ hx
  · intro hx
    exact ⟨(k, f), hx, if_pos rfl⟩

end FragmentCall

namespace Fragments

def step (r : Fragments) : FragmentCall → Fragments
  | .receive t src dst p => (fragment6Receive (BitVec.ofNat 32 t) r src dst p).2
  | .tick t => fragment6Tick (BitVec.ofNat 32 t) r

def answer (r : Fragments) : FragmentCall → Option Reassembled
  | .receive t src dst p => (fragment6Receive (BitVec.ofNat 32 t) r src dst p).1
  | .tick _ => none

structure Shared (k : FragmentKey) (others : Finset FragmentKey) (r : Fragments) : Prop where
  unique : Unique key r.slots
  keys : keys key r.slots ⊆ insert k others

variable {k : FragmentKey} {others : Finset FragmentKey} {r : Fragments} {c : FragmentCall}
  (h : Shared k others r)

include h

theorem Shared.step
    (hc : ∀ x ∈ c.fragment, x.1 ∈ insert k others) : Shared k others (r.step c) := by
  cases c with
  | receive t src dst p =>
    cases hf : Fragment.read p with
    | none =>
      simp only [Fragments.step, fragment6Receive, hf]
      exact h
    | some f =>
      obtain ⟨hu, hkeys, -⟩ := receive_frame (BitVec.ofNat 32 t) src dst h.unique hf
      refine ⟨hu, hkeys.trans (Finset.insert_subset ?_ h.keys)⟩
      exact hc ((src, dst, f.id), f) (by simp [FragmentCall.fragment, hf])
  | tick t =>
    have hshed := shed_tick (BitVec.ofNat 32 t) r
    exact ⟨hshed.unique h.unique, hshed.keys_subset.trans h.keys⟩

theorem Shared.room (hothers : others.card < fragment6MaxReassemblies) :
    (Keyed.place key r.slots k).isSome := by
  rw [h.unique.isSome_place_iff]
  by_cases hk : k ∈ Keyed.keys key r.slots
  · exact .inl hk
  · refine .inr ((Finset.card_le_card fun x hx => ?_).trans_lt hothers)
    refine Finset.mem_of_mem_insert_of_ne (h.keys hx) ?_
    rintro rfl
    exact hk hx

theorem get_step_of_other {t : ℕ} {src dst : Ip6} {p : Packet}
    (hc : (FragmentCall.receive t src dst p).own k = none) :
    get key (r.step (.receive t src dst p)).slots k = get key r.slots k := by
  cases hf : Fragment.read p with
  | none => simp only [Fragments.step, fragment6Receive, hf]
  | some f =>
    refine (receive_frame _ src dst h.unique hf).2.2 k ?_
    rintro rfl
    have hsome : (FragmentCall.receive t src dst p).own (src, dst, f.id) = some f := by
      rw [FragmentCall.own_eq_some_iff, FragmentCall.fragment, hf, Option.map_some]
    rw [hc] at hsome
    cases hsome

end Fragments

/-- What is known of the slot of a packet: whose it is, when it was taken, what it has. -/
structure Reassembly.Of (nextHeader : Byte) (payload : List Byte) (ds : List Fragment) (t₀ : ℕ)
    (s : Reassembly) : Prop where
  nextHeader_eq : s.nextHeader = nextHeader
  createdTick_eq : s.createdTick = BitVec.ofNat 32 t₀
  inUse : s.inUse = true
  holds : s.Holds payload ds

theorem Reassembly.Of.add {nextHeader : Byte} {payload : List Byte} {fs ds rs : List Fragment}
    {f : Fragment} {s : Reassembly} {t₀ : ℕ} (h : s.Of nextHeader payload ds t₀)
    (hcut : CutInto nextHeader payload fs) (hperm : (ds ++ f :: rs).Perm fs) :
    ((s.copy f).noteLast f).Of nextHeader payload (ds ++ [f]) t₀ := by
  have hadd := hcut.holds_add h.holds hperm
  rw [noteLast_eq] at hadd ⊢
  exact ⟨h.nextHeader_eq, h.createdTick_eq, h.inUse, hadd⟩

section Run

variable {k : FragmentKey} {others : Finset FragmentKey} {nextHeader : Byte} {payload : List Byte}
  {fs ds rs : List Fragment} {f : Fragment} {r : Fragments} {c : FragmentCall} {t₀ : ℕ}

/-- The packet has a slot, or no fragment has come and the next call opens it. -/
def Awaits (k : FragmentKey) (nextHeader : Byte) (payload : List Byte) (ds : List Fragment)
    (t₀ now : ℕ) (r : Fragments) : Prop :=
  (∃ s, get key r.slots k = some s ∧ s.Of nextHeader payload ds t₀) ∨
    get key r.slots k = none ∧ ds = [] ∧ t₀ = now

theorem Awaits.of_get {now : ℕ} {s : Reassembly} (h : Awaits k nextHeader payload ds t₀ now r)
    (hs : get key r.slots k = some s) : s.Of nextHeader payload ds t₀ := by
  obtain ⟨s', hs', hof⟩ | ⟨hnone, -⟩ := h
  · cases hs.symm.trans hs'
    exact hof
  · cases hs.symm.trans hnone

theorem Awaits.of_serves {now : ℕ} {src dst : Ip6} {i : Fin fragment6MaxReassemblies}
    {s : Reassembly} (h : Awaits (src, dst, f.id) nextHeader payload ds t₀ now r)
    (hserves : r.Serves (BitVec.ofNat 32 now) src dst f i s) (hf : f.nextHeader = nextHeader) :
    s.Of nextHeader payload ds t₀ := by
  obtain ⟨-, hget | ⟨hget, rfl⟩⟩ := hserves
  · exact h.of_get hget
  · obtain ⟨s', hs', -⟩ | ⟨-, rfl, rfl⟩ := h
    · cases hget.symm.trans hs'
    · exact ⟨hf, rfl, rfl, holds_create ..⟩

theorem step_own (h : r.Shared k others) (hothers : others.card < fragment6MaxReassemblies)
    (hcut : CutInto nextHeader payload fs) (hc : c.own k = some f)
    (hperm : (ds ++ f :: rs).Perm fs) (hstate : Awaits k nextHeader payload ds t₀ c.time r) :
    ((∀ g ∈ rs, ¬g.piece.Needed) → r.answer c = some ⟨nextHeader, payload.length, payload⟩ ∧
      get key (r.step c).slots k = none) ∧
    ((∃ g ∈ rs, g.piece.Needed) → r.answer c = none ∧ ∃ s, get key (r.step c).slots k = some s ∧
        s.Of nextHeader payload (ds ++ [f]) t₀) := by
  have hf : f ∈ fs := hperm.mem_iff.mp (by simp)
  cases c with
  | tick t => cases hc
  | receive t src dst p =>
    obtain ⟨g, hread, hg⟩ := Option.map_eq_some_iff.mp (FragmentCall.own_eq_some_iff.mp hc)
    obtain ⟨rfl, rfl⟩ := Prod.mk.inj hg
    have halign : g.moreFragments = true → g.data.length % 8 = 0 := fun hm =>
      Nat.mod_eq_zero_of_dvd (hcut.cut.dvd_length (mem_map_of_mem (f := piece) hf)
        (by simp [piece, hm]))
    have hagree : ∀ s, get key r.slots (src, dst, g.id) = some s →
        s.nextHeader = g.nextHeader := fun s hs =>
      (hstate.of_get hs).nextHeader_eq.trans (hcut.agree g hf).symm
    obtain ⟨i, s, hserves, hrec⟩ := receive_taken (BitVec.ofNat 32 t) halign
      (hcut.stop_le hf) hread (h.room hothers) hagree
    have hs := hstate.of_serves hserves (hcut.agree g hf)
    obtain ⟨hall, hsome⟩ := hcut.take_eq hs.holds hperm
    simp only [Fragments.answer, Fragments.step, hrec, get_collect h.unique hserves,
      r.collect_answer i s g]
    constructor
    · intro hnone
      rw [hall hnone, hs.nextHeader_eq]
      exact ⟨rfl, rfl⟩
    · intro hneed
      have hadd := hs.add hcut hperm
      rw [hsome hneed]
      exact ⟨rfl, _, if_pos hadd.inUse, hadd⟩

def Silent (k : FragmentKey) : Fragments → List FragmentCall → Prop :=
  Runs.Along Fragments.step fun r c => (c.own k).isSome → r.answer c = none

theorem step_after (h : r.Shared k others)
    (hr : ∀ s, get key r.slots k = some s → s.haveLast = false)
    (hc : ∀ f, c.own k = some f → f.moreFragments = true) :
    ((c.own k).isSome → r.answer c = none) ∧
      ∀ s, get key (r.step c).slots k = some s → s.haveLast = false := by
  cases hown : c.own k with
  | none =>
    refine ⟨nofun, ?_⟩
    cases c with
    | receive t src dst p =>
      rw [Fragments.get_step_of_other h hown]
      exact hr
    | tick t => exact fun s hs => hr s (((shed_tick _ r).get_eq_some_iff h.unique).mp hs).1
  | some f =>
    cases c with
    | tick t => cases hown
    | receive t src dst p =>
      have hmore := hc f hown
      obtain ⟨g, hread, hg⟩ := Option.map_eq_some_iff.mp (FragmentCall.own_eq_some_iff.mp hown)
      cases hg
      simp only [Fragments.answer, Fragments.step]
      obtain ⟨hans, hs | ⟨i, hi, hs⟩⟩ | ⟨i, s, hserves, hrec⟩ :=
        receive_cases (BitVec.ofNat 32 t) r src dst hread
      · rw [hs]
        exact ⟨fun _ => hans, hr⟩
      · rw [hs, h.unique.get_overwrite hi (.inl rfl)]
        exact ⟨fun _ => hans, by simp⟩
      · have hlast : s.haveLast = false := by
          obtain ⟨-, hget | ⟨-, rfl⟩⟩ := hserves
          · exact hr s hget
          · rfl
        obtain ⟨htake, hkept⟩ := take_of_more hmore hlast
        rw [hrec, get_collect h.unique hserves, Fragments.collect_answer]
        refine ⟨fun _ => htake, fun s' hs' => ?_⟩
        split_ifs at hs' with hu
        cases hs'
        exact hkept

theorem silent_after (h : r.Shared k others) {calls : List FragmentCall}
    (hr : ∀ s, get key r.slots k = some s → s.haveLast = false)
    (hcalls : ∀ c ∈ calls, ∀ x ∈ c.fragment, x.1 ∈ insert k others)
    (hmore : ∀ f ∈ calls.filterMap (FragmentCall.own k), f.moreFragments = true) :
    Silent k r calls := by
  induction calls generalizing r with
  | nil => trivial
  | cons c calls ih =>
    obtain ⟨hsilent, hnext⟩ := step_after (c := c) h hr fun f hf =>
      hmore f (mem_filterMap.mpr ⟨c, mem_cons_self, hf⟩)
    refine ⟨hsilent, ih (h.step (hcalls c mem_cons_self)) hnext ?_ ?_⟩
    · exact fun c' hc' => hcalls c' (mem_cons_of_mem _ hc')
    · intro f hf
      obtain ⟨c', hc', hf'⟩ := mem_filterMap.mp hf
      exact hmore f (mem_filterMap.mpr ⟨c', mem_cons_of_mem _ hc', hf'⟩)

/-- The packet is handed out once, by the last call that brings something it needs. -/
def HandedOut (k : FragmentKey) (nextHeader : Byte) (payload : List Byte) (r : Fragments)
    (calls : List FragmentCall) : Prop :=
  ∃ pre c post f, calls = pre ++ c :: post ∧ c.own k = some f ∧ f.piece.Needed ∧
    (∀ g ∈ post.filterMap (FragmentCall.own k), ¬g.piece.Needed) ∧
    Silent k r pre ∧
    (Runs.run Fragments.step r pre).answer c = some ⟨nextHeader, payload.length, payload⟩ ∧
    Silent k (Runs.run Fragments.step r (pre ++ [c])) post

theorem HandedOut.cons {calls : List FragmentCall}
    (h : HandedOut k nextHeader payload (r.step c) calls)
    (hc : (c.own k).isSome → r.answer c = none) :
    HandedOut k nextHeader payload r (c :: calls) := by
  obtain ⟨pre, c', post, f, rfl, hown, hneed, hpost, hsilent, hans, hrest⟩ := h
  exact ⟨c :: pre, c', post, f, rfl, hown, hneed, hpost, ⟨hc, hsilent⟩, hans, hrest⟩

variable {calls : List FragmentCall}

/-- The calls come in order and bring fragments of the packet and of the others only. -/
structure Traffic (k : FragmentKey) (others : Finset FragmentKey) (calls : List FragmentCall) :
    Prop where
  sorted : calls.Pairwise fun c c' => c.time ≤ c'.time
  known : ∀ c ∈ calls, ∀ x ∈ c.fragment, x.1 ∈ insert k others

theorem Traffic.tail (h : Traffic k others (c :: calls)) : Traffic k others calls :=
  ⟨(pairwise_cons.mp h.sorted).2, fun c' hc' => h.known c' (mem_cons_of_mem _ hc')⟩

theorem Traffic.step (h : Traffic k others (c :: calls)) (hr : r.Shared k others) :
    (r.step c).Shared k others := hr.step (h.known c mem_cons_self)

theorem handedOut_own (h : r.Shared k others) (hothers : others.card < fragment6MaxReassemblies)
    (hcut : CutInto nextHeader payload fs) (ht : Traffic k others (c :: calls))
    (hc : c.own k = some f)
    (hperm : (ds ++ f :: calls.filterMap (FragmentCall.own k)).Perm fs)
    (hneed : ∃ g ∈ f :: calls.filterMap (FragmentCall.own k), g.piece.Needed)
    (hstate : Awaits k nextHeader payload ds t₀ c.time r)
    (hrest : (∃ g ∈ calls.filterMap (FragmentCall.own k), g.piece.Needed) →
      (∃ s, get key (r.step c).slots k = some s ∧ s.Of nextHeader payload (ds ++ [f]) t₀) →
      HandedOut k nextHeader payload (r.step c) calls) :
    HandedOut k nextHeader payload r (c :: calls) := by
  obtain ⟨hlast, hmore⟩ := step_own h hothers hcut hc hperm hstate
  by_cases hleft : ∃ g ∈ calls.filterMap (FragmentCall.own k), g.piece.Needed
  · obtain ⟨hans, hnext⟩ := hmore hleft
    exact (hrest hleft hnext).cons fun _ => hans
  · have hnone : ∀ g ∈ calls.filterMap (FragmentCall.own k), ¬g.piece.Needed :=
      fun g hg hn => hleft ⟨g, hg, hn⟩
    obtain ⟨hans, hget⟩ := hlast hnone
    obtain ⟨g, hg, hn⟩ := hneed
    obtain rfl := (mem_cons.mp hg).resolve_right fun hg' => hnone g hg' hn
    refine ⟨[], c, calls, g, rfl, hc, hn, hnone, trivial, hans, ?_⟩
    refine silent_after (ht.step h) ?_ ht.tail.known ?_
    · intro s hs
      cases hget.symm.trans hs
    · intro f hf
      by_contra hfinal
      exact hnone f hf (.inr (by simpa [piece] using hfinal))

theorem Reassembly.Of.not_expired {s : Reassembly} (h : s.Of nextHeader payload ds t₀) {t : ℕ}
    (hle : t₀ ≤ t) (hin : t ≤ t₀ + fragment6TimeoutTicks.toNat) :
    s.expired (BitVec.ofNat 32 t) = false := by
  have hsub := Wrap.toNat_ofNat_sub_le (w := 32) hle
  rw [expired, h.createdTick_eq, h.inUse, Bool.true_and, decide_eq_false_iff_not, BitVec.lt_def]
  omega

theorem handedOut_underway (h : r.Shared k others)
    (hothers : others.card < fragment6MaxReassemblies) (hcut : CutInto nextHeader payload fs)
    (ht : Traffic k others calls)
    (hperm : (ds ++ calls.filterMap (FragmentCall.own k)).Perm fs)
    (hneed : ∃ g ∈ calls.filterMap (FragmentCall.own k), g.piece.Needed)
    (hafter : ∀ c ∈ calls, t₀ ≤ c.time)
    (hin : ∀ c ∈ calls, (c.own k).isSome → c.time ≤ t₀ + fragment6TimeoutTicks.toNat)
    (hs : ∃ s, get key r.slots k = some s ∧ s.Of nextHeader payload ds t₀) :
    HandedOut k nextHeader payload r calls := by
  induction calls generalizing r ds with
  | nil =>
    obtain ⟨g, hg, -⟩ := hneed
    cases hg
  | cons c calls ih =>
    have hafter' : ∀ c' ∈ calls, t₀ ≤ c'.time :=
      fun c' hc' => hafter c' (mem_cons_of_mem _ hc')
    have hin' : ∀ c' ∈ calls, (c'.own k).isSome → c'.time ≤ t₀ + fragment6TimeoutTicks.toNat :=
      fun c' hc' => hin c' (mem_cons_of_mem _ hc')
    cases hown : c.own k with
    | some f =>
      rw [filterMap_cons_some hown] at hperm hneed
      refine handedOut_own h hothers hcut ht hown hperm hneed (.inl hs) fun hneed' hs' => ?_
      exact ih (ht.step h) ht.tail (by simpa using hperm) hneed' hafter' hin' hs'
    | none =>
      rw [filterMap_cons_none hown] at hperm hneed
      refine (ih (ht.step h) ht.tail hperm hneed hafter' hin' ?_).cons (by simp [hown])
      obtain ⟨s, hget, hof⟩ := hs
      refine ⟨s, ?_, hof⟩
      cases c with
      | receive t src dst p => rwa [Fragments.get_step_of_other h hown]
      | tick t =>
        -- a fragment that is needed comes later, and in time
        obtain ⟨g, hg, -⟩ := hneed
        obtain ⟨c', hc', hg'⟩ := mem_filterMap.mp hg
        have hle : t ≤ c'.time := (pairwise_cons.mp ht.sorted).1 c' hc'
        have hlast := hin' c' hc' (by simp [hg'])
        exact ((shed_tick _ r).get_eq_some_iff h.unique).mpr
          ⟨hget, hof.not_expired (hafter _ mem_cons_self) (hle.trans hlast)⟩

theorem handedOut_new (h : r.Shared k others)
    (hothers : others.card < fragment6MaxReassemblies) (hcut : CutInto nextHeader payload fs)
    (ht : Traffic k others calls) (hperm : (calls.filterMap (FragmentCall.own k)).Perm fs)
    (hin : ∀ c ∈ calls, ∀ c' ∈ calls, (c.own k).isSome → (c'.own k).isSome →
      c'.time ≤ c.time + fragment6TimeoutTicks.toNat)
    (hnone : get key r.slots k = none) :
    HandedOut k nextHeader payload r calls := by
  induction calls generalizing r with
  | nil =>
    obtain ⟨g, hg, -⟩ := hcut.exists_needed
    rw [← hperm.nil_eq] at hg
    cases hg
  | cons c calls ih =>
    have hin' : ∀ c₁ ∈ calls, ∀ c₂ ∈ calls, (c₁.own k).isSome → (c₂.own k).isSome →
        c₂.time ≤ c₁.time + fragment6TimeoutTicks.toNat := fun c₁ h₁ c₂ h₂ =>
      hin c₁ (mem_cons_of_mem _ h₁) c₂ (mem_cons_of_mem _ h₂)
    cases hown : c.own k with
    | some f =>
      rw [filterMap_cons_some hown] at hperm
      have hneed : ∃ g ∈ f :: calls.filterMap (FragmentCall.own k), g.piece.Needed := by
        obtain ⟨g, hg, hn⟩ := hcut.exists_needed
        exact ⟨g, hperm.mem_iff.mpr hg, hn⟩
      refine handedOut_own h hothers hcut ht hown hperm hneed
        (.inr ⟨hnone, rfl, rfl⟩) fun hneed' hs' => ?_
      refine handedOut_underway (ht.step h) hothers hcut ht.tail hperm hneed' ?_ ?_ hs'
      · exact (pairwise_cons.mp ht.sorted).1
      · intro c' hc' hown'
        exact hin c mem_cons_self c' (mem_cons_of_mem _ hc') (by simp [hown]) hown'
    | none =>
      rw [filterMap_cons_none hown] at hperm
      refine (ih (ht.step h) ht.tail hperm hin' ?_).cons (by simp [hown])
      cases c with
      | receive t src dst p => rwa [Fragments.get_step_of_other h hown]
      | tick t =>
        refine Option.eq_none_iff_forall_ne_some.mpr fun s hs => ?_
        cases hnone.symm.trans (((shed_tick _ r).get_eq_some_iff h.unique).mp hs).1

/-- A packet cut in any way is handed out once, unchanged, by its last fragment. -/
theorem packet_handed_out_once (hcut : CutInto nextHeader payload fs)
    (hothers : others.card ≤ 3) (hk : k ∉ others)
    (hunique : Unique key r.slots)
    (hkeys : keys key r.slots ⊆ others) (ht : Traffic k others calls)
    (hperm : (calls.filterMap (FragmentCall.own k)).Perm fs)
    (hin : ∀ c ∈ calls, ∀ c' ∈ calls, (c.own k).isSome → (c'.own k).isSome →
      c'.time ≤ c.time + fragment6TimeoutTicks.toNat) :
    HandedOut k nextHeader payload r calls := by
  refine handedOut_new ⟨hunique, hkeys.trans (Finset.subset_insert _ _)⟩ (Nat.lt_succ_of_le hothers)
    hcut ht hperm hin ?_
  rw [← Option.not_isSome_iff_eq_none, isSome_get_iff]
  exact fun h => hk (hkeys h)

end Run

theorem two_fragments_handed_out :
    let head : Fragment := ⟨17, 0, true, 7, [1, 2, 3, 4, 5, 6, 7, 8]⟩
    let tail : Fragment := ⟨17, 1, false, 7, [9, 10, 11, 12]⟩
    let other : Fragment := ⟨6, 0, true, 8, [0, 0, 0, 0, 0, 0, 0, 0]⟩
    HandedOut (fun _ => 1, fun _ => 2, 7) 17 [1, 2, 3, 4, 5, 6, 7, 8, 9, 10, 11, 12] {}
      [.receive 100 (fun _ => 1) (fun _ => 2) ⟨tail.bytes, by decide⟩,
        .receive 101 (fun _ => 1) (fun _ => 2) ⟨other.bytes, by decide⟩, .tick 500,
        .receive 600 (fun _ => 1) (fun _ => 2) ⟨head.bytes, by decide⟩] := by
  intro head tail other
  have hcut : CutInto 17 (head.data ++ tail.data) [head, tail] :=
    ⟨by decide, by decide, .more (by decide) (.last 8 tail.data)⟩
  have hothers : ({(fun _ => 1, fun _ => 2, 8)} : Finset FragmentKey).card ≤ 3 := by decide
  refine packet_handed_out_once hcut hothers (by decide) ?_ ?_ ⟨by decide, by decide⟩ (by decide)
    (by decide)
  · intro i j k hi
    cases hi
  · intro k hk
    obtain ⟨i, hi⟩ := mem_keys.mp hk
    cases hi

end Aevros
