import Aevros.Guarantees.Reassembly

/-! # What a reassembled packet is made of

A packet that `fragment6_receive` hands out is covered by the fragments accepted for it, which do
not overlap. Bytes beyond the end of the final one are left out.
-/

namespace Aevros

open Fragment List Reassembly Pieces Function Bool Runs

namespace Reassembly

variable {s : Reassembly} {ds : List Fragment} {f : Fragment}

theorem take_cases (s : Reassembly) (f : Fragment) :
    ((s.take f).1 = none ∧ (s.take f).2.inUse = false) ∨
    rangeOverlaps s.unitBitmap f.offsetUnits f.endUnit = false ∧
      (f.moreFragments = false → s.haveLast = false) ∧
      s.take f = if ((s.copy f).noteLast f).complete then
        (some ((s.copy f).noteLast f).output, ((s.copy f).noteLast f).abortSlot)
        else (none, (s.copy f).noteLast f) := by
  unfold take
  cases hover : rangeOverlaps s.unitBitmap f.offsetUnits f.endUnit with
  | true => exact .inl ⟨rfl, rfl⟩
  | false =>
    by_cases hconflict : (!f.moreFragments && s.haveLast) = true
    · rw [if_pos hconflict]
      exact .inl ⟨rfl, rfl⟩
    · rw [if_neg hconflict]
      exact .inr ⟨rfl, by simpa using hconflict, rfl⟩

structure Collected (s : Reassembly) (ds : List Fragment) : Prop where
  fits : ∀ f ∈ ds, f.piece.stop ≤ fragment6MaxTotalBytes
  aligned : ∀ f ∈ ds, f.moreFragments = true → 8 ∣ f.data.length
  apart : ds.Pairwise fun f g => Piece.Apart 8 f.piece g.piece
  marked : ∀ u < units, bitTest s.unitBitmap u = true ↔ ∃ f ∈ ds, f.piece.Covers 8 u
  copied : ∀ f ∈ ds, ∀ j : Fin fragment6MaxTotalBytes, f.piece.Has j →
    s.buf j = f.data.getD (j - f.offsetBytes) 0
  last_iff : s.haveLast = true ↔ ∃ f ∈ ds, f.moreFragments = false
  total : ∀ f ∈ ds, f.moreFragments = false → s.totalLen = f.piece.stop

theorem dvd_start (f : Fragment) : 8 ∣ f.piece.start := Nat.dvd_mul_left _ _

section

variable (h : s.Collected ds)

include h

theorem Collected.apart_of_checked (hfits : f.piece.stop ≤ fragment6MaxTotalBytes)
    (hover : rangeOverlaps s.unitBitmap f.offsetUnits f.endUnit = false)
    (hconflict : f.moreFragments = false → s.haveLast = false) :
    ∀ g ∈ ds, Piece.Apart 8 g.piece f.piece := by
  intro g hg
  constructor
  · intro u hgu hfu
    have hbit := (h.marked u (Piece.Covers.lt_units hfu hfits)).mpr ⟨g, hg, hgu⟩
    rw [rangeOverlaps_iff.mpr ⟨u, (mem_units_iff hfits).mpr hfu, hbit⟩] at hover
    cases hover
  · rintro ⟨hgl, hfl⟩
    have hlast := h.last_iff.mpr ⟨g, hg, by simpa [piece] using hgl⟩
    rw [hconflict (by simpa [piece] using hfl)] at hlast
    cases hlast

theorem Collected.add (hfits : f.piece.stop ≤ fragment6MaxTotalBytes)
    (haligned : f.moreFragments = true → 8 ∣ f.data.length)
    (hover : rangeOverlaps s.unitBitmap f.offsetUnits f.endUnit = false)
    (hconflict : f.moreFragments = false → s.haveLast = false) :
    ((s.copy f).noteLast f).Collected (ds ++ [f]) := by
  have happart := h.apart_of_checked hfits hover hconflict
  rw [noteLast_eq]
  constructor
  case fits =>
    exact forall_mem_append.mpr ⟨h.fits, by simpa using hfits⟩
  case aligned =>
    exact forall_mem_append.mpr ⟨h.aligned, by simpa using haligned⟩
  case apart =>
    exact pairwise_append.mpr ⟨h.apart, pairwise_singleton _ _, by simpa using happart⟩
  case marked =>
    intro u hu
    simp only [bitTest_copy hfits s hu, h.marked u hu, mem_append, mem_singleton,
      or_and_right, exists_or, exists_eq_left]
    exact or_comm
  case copied =>
    intro g hg j hj
    obtain hg | hg := mem_append.mp hg
    · have hnot : ¬ f.piece.Has j := fun hf =>
        (happart g hg).1 _ (hj.covers (by decide) (dvd_start g))
          (hf.covers (by decide) (dvd_start f))
      exact (if_neg hnot).trans (h.copied g hg j hj)
    · obtain rfl := mem_singleton.mp hg
      exact if_pos hj
  case last_iff =>
    simp only [copy, or_eq_true, h.last_iff, not_eq_true', mem_append,
      mem_singleton, or_and_right, exists_or, exists_eq_left]
  case total =>
    intro g hg hlast
    obtain hg | hg := mem_append.mp hg
    · have hmore : f.moreFragments = true := by
        by_contra hf
        have hfl := (not_eq_true _).mp hf
        exact (happart g hg).2 ⟨by simp [piece, hlast], by simp [piece, hfl]⟩
      simp only [hmore]
      exact h.total g hg hlast
    · obtain rfl := mem_singleton.mp hg
      simp only [hlast]
      rfl

theorem Collected.totalLen_le (hc : s.complete = true) :
    ∃ f ∈ ds, f.moreFragments = false ∧ s.totalLen = f.piece.stop ∧
      s.totalLen ≤ fragment6MaxTotalBytes := by
  obtain ⟨f, hf, hlast⟩ := h.last_iff.mp (and_eq_true_iff.mp hc).1
  exact ⟨f, hf, hlast, h.total f hf hlast, h.total f hf hlast ▸ h.fits f hf⟩

theorem Collected.exists_has (hc : s.complete = true) {j : ℕ}
    (hj : j < s.totalLen) : ∃ f ∈ ds, f.piece.Has j := by
  obtain ⟨-, -, -, -, hle⟩ := h.totalLen_le hc
  have hunit : j / 8 < s.neededUnits := by
    refine (lt_units_iff (m := 8) (by decide)).mpr ?_
    exact (Nat.mul_div_le j 8).trans_lt hj
  have hbit : bitTest s.unitBitmap (j / 8) = true :=
    all_eq_true.mp (and_eq_true_iff.mp hc).2 _ (mem_range.mpr hunit)
  have hlt : j / 8 < units := Nat.div_lt_of_lt_mul (hj.trans_le hle)
  obtain ⟨f, hf, hcov⟩ := (h.marked _ hlt).mp hbit
  refine ⟨f, hf, hcov.has (by decide) (dvd_start f) ?_ ?_⟩
  · intro hlast
    rw [← h.total f hf (by simpa [piece] using hlast)]
    exact hj
  · intro hmore
    exact h.aligned f hf (by simpa [piece] using hmore)

end

theorem length_output (hle : s.totalLen ≤ fragment6MaxTotalBytes) :
    s.output.buf.length = s.output.len := by
  rw [output, length_take, length_ofFn]
  exact Nat.min_eq_left hle

theorem Collected.getElem?_output (h : s.Collected ds) (hle : s.totalLen ≤ fragment6MaxTotalBytes)
    (hf : f ∈ ds) {j : ℕ} (hj : f.piece.Has j) (hlt : j < s.totalLen) :
    s.output.buf[j]? = f.data[j - f.offsetBytes]? := by
  have hdata : j - f.offsetBytes < f.data.length := Nat.sub_lt_left_of_lt_add hj.1 hj.2
  have hbuf := h.copied f hf ⟨j, hlt.trans_le hle⟩ hj
  rw [output, List.getElem?_take_of_lt hlt, List.getElem?_ofFn, dif_pos (hlt.trans_le hle), hbuf]
  simp [hdata]

end Reassembly

def Fragments.target (r : Fragments) (src dst : Ip6) (f : Fragment) :
    Option (Fin fragment6MaxReassemblies × Bool) :=
  if f.moreFragments && f.data.length % 8 ≠ 0 then none
  else if fragment6MaxTotalBytes < f.offsetBytes + f.data.length then none
  else match findSlot r.slots src dst f.id with
    | some i => if (r.slots i).nextHeader ≠ f.nextHeader then none else some (i, false)
    | none => (freeReassembly r.slots).map fun i => (i, true)

structure Assembly where
  table : Fragments := {}
  parts : Fin fragment6MaxReassemblies → List Fragment := fun _ => []

namespace Assembly

def put (a : Assembly) (src dst : Ip6) (f : Fragment) :
    Fin fragment6MaxReassemblies → List Fragment :=
  match a.table.target src dst f with
  | none => a.parts
  | some (i, new) => update a.parts i ((if new then [] else a.parts i) ++ [f])

def step (a : Assembly) (c : FragmentCall) : Assembly where
  table := a.table.step c
  parts := match c with
    | .tick _ => a.parts
    | .receive _ src dst p =>
      match Fragment.read p with
      | none => a.parts
      | some f => a.put src dst f

end Assembly

theorem inUse_of_findSlot {slots : Fin fragment6MaxReassemblies → Reassembly} {src dst : Ip6}
    {id : Word} {i : Fin fragment6MaxReassemblies} (h : findSlot slots src dst id = some i) :
    (slots i).inUse = true := by
  rw [findSlot_eq] at h
  have hkey : (slots i).key = some (src, dst, id) := Keyed.key_of_find h
  exact (Keyed.tag_eq_some_iff.mp hkey).1

theorem put_abortSlot_or (r : Fragments) (i j : Fin fragment6MaxReassemblies) :
    (r.put i (r.slots i).abortSlot).slots j = r.slots j ∨
      ((r.put i (r.slots i).abortSlot).slots j).inUse = false := by
  by_cases hj : j = i
  · subst hj
    exact .inr (by simp [Fragments.put, Reassembly.abortSlot])
  · exact .inl (update_of_ne hj ..)

theorem receive_target (now : Word) (r : Fragments) (src dst : Ip6) {p : Packet} {f : Fragment}
    (hf : Fragment.read p = some f) :
    (r.target src dst f = none ∧ (fragment6Receive now r src dst p).1 = none ∧
      ∀ i, (fragment6Receive now r src dst p).2.slots i = r.slots i ∨
        ((fragment6Receive now r src dst p).2.slots i).inUse = false) ∨
    f.piece.stop ≤ fragment6MaxTotalBytes ∧ (f.moreFragments = true → 8 ∣ f.data.length) ∧
      ∃ i s new, r.target src dst f = some (i, new) ∧
        fragment6Receive now r src dst p = r.collect i s f ∧
        if new then s = (r.slots i).create now src dst f
        else s = r.slots i ∧ (r.slots i).inUse = true := by
  unfold fragment6Receive Fragments.target
  rw [hf]
  dsimp only
  split_ifs with halign hlong
  · exact .inl ⟨rfl, rfl, fun i => .inl rfl⟩
  · refine .inl ⟨rfl, ?_⟩
    cases findSlot r.slots src dst f.id with
    | none => exact ⟨rfl, fun i => .inl rfl⟩
    | some i => exact ⟨rfl, put_abortSlot_or r i⟩
  · have hmore : f.moreFragments = true → 8 ∣ f.data.length := by
      intro hm
      rw [hm] at halign
      exact Nat.dvd_of_mod_eq_zero (by simpa using halign)
    cases hfind : findSlot r.slots src dst f.id with
    | some i =>
      dsimp only
      split_ifs with hnext
      · exact .inl ⟨rfl, rfl, put_abortSlot_or r i⟩
      · exact .inr ⟨Nat.not_lt.mp hlong, hmore, i, _, false, rfl, rfl, rfl, inUse_of_findSlot hfind⟩
    | none =>
      cases freeReassembly r.slots with
      | none => exact .inl ⟨rfl, rfl, fun i => .inl rfl⟩
      | some i => exact .inr ⟨Nat.not_lt.mp hlong, hmore, i, _, true, rfl, rfl, rfl⟩

namespace Assembly

variable {a : Assembly} {src dst : Ip6} {p : Packet} {f : Fragment} {t : ℕ} {out : Reassembled}
  {c : FragmentCall} {i : Fin fragment6MaxReassemblies}

/-- Every slot in use is made of the fragments that were put into it. -/
def Sound (a : Assembly) : Prop :=
  ∀ i, (a.table.slots i).inUse = true → (a.table.slots i).Collected (a.parts i)

theorem parts_receive (hf : Fragment.read p = some f) :
    (a.step (.receive t src dst p)).parts = a.put src dst f := by
  dsimp only [step]
  rw [hf]

section

variable (h : a.Sound)

include h

theorem Sound.take (hf : Fragment.read p = some f) {new : Bool}
    (hi : a.table.target src dst f = some (i, new)) :
    ∃ s : Reassembly, (a.step (.receive t src dst p)).table.slots = update a.table.slots i s ∧
      (a.table.answer (.receive t src dst p) = none ∧ s.inUse = false ∨
        ∃ s' : Reassembly, s'.Collected ((a.step (.receive t src dst p)).parts i) ∧
          if s'.complete then
            a.table.answer (.receive t src dst p) = some s'.output ∧ s = s'.abortSlot
          else a.table.answer (.receive t src dst p) = none ∧ s = s') := by
  obtain ⟨hnone, -⟩ | ⟨hfits, haligned, i', s, new', hi', heq, hs⟩ :=
    receive_target (BitVec.ofNat 32 t) a.table src dst hf
  · rw [hnone] at hi
    cases hi
  rw [hi'] at hi
  cases hi
  have hcoll : s.Collected (if new then [] else a.parts i) := by
    cases new with
    | true =>
      obtain rfl : s = _ := hs
      constructor <;> simp [Reassembly.create, bitTest]
    | false =>
      obtain ⟨rfl, huse⟩ : s = _ ∧ _ := hs
      exact h i huse
  have hparts : (a.step (.receive t src dst p)).parts i =
      (if new then [] else a.parts i) ++ [f] := by
    rw [parts_receive hf, put, hi']
    exact update_self ..
  have hanswer : a.table.answer (.receive t src dst p) = (s.take f).1 :=
    (congrArg Prod.fst heq).trans (Fragments.collect_answer ..)
  refine ⟨(s.take f).2, ?_, ?_⟩
  · exact (congrArg (fun x => x.2.slots) heq).trans (Fragments.collect_slots ..)
  rw [hanswer, hparts]
  obtain hend | ⟨hover, hconflict, htake⟩ := s.take_cases f
  · exact .inl hend
  · refine .inr ⟨_, hcoll.add hfits haligned hover hconflict, ?_⟩
    rw [htake]
    split_ifs <;> exact ⟨rfl, rfl⟩

theorem Sound.tick (t : ℕ) : (a.step (.tick t)).Sound := by
  intro j hj
  have hslot : (a.step (.tick t)).table.slots j =
      if (a.table.slots j).expired (BitVec.ofNat 32 t) then (a.table.slots j).abortSlot
      else a.table.slots j := rfl
  rw [hslot] at hj ⊢
  split_ifs at hj ⊢ with hexp
  · cases hj
  · exact h j hj

theorem Sound.refused (hf : Fragment.read p = some f)
    (hi : a.table.target src dst f = none) : (a.step (.receive t src dst p)).Sound := by
  intro j hj
  have hparts : (a.step (.receive t src dst p)).parts j = a.parts j := by
    rw [parts_receive hf, put, hi]
  obtain ⟨-, -, hslots⟩ | ⟨-, -, i, _, _, hi', -⟩ :=
    receive_target (BitVec.ofNat 32 t) a.table src dst hf
  · rw [hparts]
    obtain heq | hoff := hslots j
    · exact heq ▸ h j (heq ▸ hj)
    · exact absurd hj (by rw [not_eq_true]; exact hoff)
  · rw [hi'] at hi
    cases hi

theorem Sound.taken (hf : Fragment.read p = some f) {new : Bool}
    (hi : a.table.target src dst f = some (i, new)) : (a.step (.receive t src dst p)).Sound := by
  intro j hj
  obtain ⟨s, hslots, hs⟩ := h.take (t := t) hf hi
  by_cases hij : j = i
  · subst hij
    rw [hslots, update_self] at hj ⊢
    obtain ⟨-, hoff⟩ | ⟨s', hcoll, hs'⟩ := hs
    · rw [hoff] at hj
      cases hj
    · split_ifs at hs' with hc
      · rw [hs'.2] at hj
        cases hj
      · rw [hs'.2]
        exact hcoll
  · rw [hslots, update_of_ne hij] at hj ⊢
    rw [parts_receive hf, put, hi]
    dsimp only
    rw [update_of_ne hij]
    exact h j hj

theorem Sound.step (c : FragmentCall) : (a.step c).Sound := by
  cases c with
  | tick t => exact h.tick t
  | receive t src dst p =>
    cases hf : Fragment.read p with
    | none =>
      have hstep : a.step (.receive t src dst p) = a := by
        simp [Assembly.step, Fragments.step, fragment6Receive, hf]
      rwa [hstep]
    | some f =>
      cases hi : a.table.target src dst f with
      | none => exact h.refused hf hi
      | some x => exact h.taken hf hi

end

theorem sound_run (calls : List FragmentCall) : (run step {} calls).Sound := by
  have hinit : Sound {} := fun i hi => absurd hi false_ne_true
  exact run_invariant (I := Sound) (fun _ c h => h.step c) hinit calls

theorem Sound.of_answer (h : a.Sound) (hout : a.table.answer (.receive t src dst p) = some out) :
    ∃ f i new s, Fragment.read p = some f ∧ a.table.target src dst f = some (i, new) ∧
      Reassembly.Collected s ((a.step (.receive t src dst p)).parts i) ∧
      s.complete = true ∧ out = s.output := by
  cases hf : Fragment.read p with
  | none =>
    have hnone : a.table.answer (.receive t src dst p) = none := by
      simp [Fragments.answer, fragment6Receive, hf]
    rw [hnone] at hout
    cases hout
  | some f =>
    cases hi : a.table.target src dst f with
    | none =>
      obtain ⟨-, hnone, -⟩ | ⟨-, -, i, _, _, hi', -⟩ :=
        receive_target (BitVec.ofNat 32 t) a.table src dst hf
      · rw [show a.table.answer (.receive t src dst p) = none from hnone] at hout
        cases hout
      · rw [hi'] at hi
        cases hi
    | some x =>
      obtain ⟨s, -, ⟨hnone, -⟩ | ⟨s', hcoll, hs'⟩⟩ := h.take (t := t) hf hi
      · rw [hnone] at hout
        cases hout
      · split_ifs at hs' with hc
        · rw [hs'.1] at hout
          cases hout
          exact ⟨f, x.1, x.2, s', rfl, hi, hcoll, hc, rfl⟩
        · rw [hs'.1] at hout
          cases hout

end Assembly

theorem has_iff_lt_iff {ds : List Fragment} {n : ℕ} (hall : ∀ j < n, ∃ g ∈ ds, g.piece.Has j) :
    (∀ j, (∃ g ∈ ds, g.piece.Has j) ↔ j < n) ↔ ∀ g ∈ ds, g.data ≠ [] → g.piece.stop ≤ n := by
  constructor
  · intro hexact g hg hne
    have hlen := length_pos_iff.mpr hne
    have hlast : g.piece.Has (g.piece.stop - 1) := by
      constructor <;> simp only [Pieces.Piece.stop, piece] <;> omega
    have := (hexact _).mp ⟨g, hg, hlast⟩
    omega
  · intro hend j
    constructor
    · rintro ⟨g, hg, hj⟩
      have hne : g.data ≠ [] := by
        rintro hnil
        simp [Pieces.Piece.Has, Pieces.Piece.stop, piece, hnil] at hj
        omega
      exact hj.2.trans_le (hend g hg hne)
    · exact hall j

/-- What is handed out is covered by fragments that do not overlap. -/
theorem handed_out_covered (calls : List FragmentCall) (t : ℕ) (src dst : Ip6) (p : Packet)
    (out : Reassembled)
    (hout : (run Assembly.step {} calls).table.answer (.receive t src dst p) = some out) :
    let a := run Assembly.step {} calls
    ∃ f i new, Fragment.read p = some f ∧ a.table.target src dst f = some (i, new) ∧
      let parts := (a.step (.receive t src dst p)).parts i
      out.buf.length = out.len ∧ (∃ g ∈ parts, g.moreFragments = false ∧ g.piece.stop = out.len) ∧
        parts.Pairwise (fun g g' => ∀ j, g.piece.Has j → ¬ g'.piece.Has j) ∧
        (∀ j < out.len, ∃! g, g ∈ parts ∧ g.piece.Has j) ∧
        (∀ j < out.len, ∀ g ∈ parts, g.piece.Has j → out.buf[j]? = g.data[j - g.offsetBytes]?) ∧
        ((∀ j, (∃ g ∈ parts, g.piece.Has j) ↔ j < out.len) ↔
          ∀ g ∈ parts, g.data ≠ [] → g.piece.stop ≤ out.len) := by
  obtain ⟨f, i, new, s, hf, hi, hcoll, hc, rfl⟩ := (Assembly.sound_run calls).of_answer hout
  refine ⟨f, i, new, hf, hi, ?_⟩
  intro parts
  obtain ⟨g, hg, hlast, htotal, hle⟩ := hcoll.totalLen_le hc
  have hapart : parts.Pairwise fun g g' => ∀ j, g.piece.Has j → ¬ g'.piece.Has j :=
    hcoll.apart.imp fun h j hj hj' => h.1 _ (hj.covers (by decide) (dvd_start _))
      (hj'.covers (by decide) (dvd_start _))
  refine ⟨length_output hle, ⟨g, hg, hlast, htotal.symm⟩, hapart, ?_, ?_, ?_⟩
  · intro j hj
    obtain ⟨g, hg, hgj⟩ := hcoll.exists_has hc hj
    refine ⟨g, ⟨hg, hgj⟩, fun g' ⟨hg', hgj'⟩ => ?_⟩
    by_contra hne
    have : Std.Symm fun g g' : Fragment => ∀ j, g.piece.Has j → ¬ g'.piece.Has j :=
      ⟨fun _ _ h j hj hj' => h j hj' hj⟩
    exact hapart.forall hg' hg hne j hgj' hgj
  · exact fun j hj g hg hgj => hcoll.getElem?_output hle hg hgj hj
  · exact has_iff_lt_iff fun j hj => hcoll.exists_has hc hj

theorem two_fragments_covered :
    let head : Fragment := ⟨17, 0, true, 7, [1, 2, 3, 4, 5, 6, 7, 8]⟩
    let tail : Fragment := ⟨17, 1, false, 7, [9, 10, 11, 12]⟩
    let a := run Assembly.step {} [.receive 100 (fun _ => 1) (fun _ => 2) ⟨tail.bytes, by decide⟩]
    ∃ i, ∀ j < 12, ∃! g,
      g ∈ (a.step (.receive 101 (fun _ => 1) (fun _ => 2) ⟨head.bytes, by decide⟩)).parts i ∧
        g.piece.Has j := by
  intro head tail a
  have hout : a.table.answer (.receive 101 (fun _ => 1) (fun _ => 2) ⟨head.bytes, by decide⟩) =
      some ⟨17, 12, [1, 2, 3, 4, 5, 6, 7, 8, 9, 10, 11, 12]⟩ := by decide +kernel
  obtain ⟨f, i, new, -, -, -, -, -, hone, -⟩ := handed_out_covered
    [.receive 100 (fun _ => 1) (fun _ => 2) ⟨tail.bytes, by decide⟩] 101 _ _ _ _ hout
  exact ⟨i, hone⟩

theorem fragment_beyond_end_accepted :
    let late : Fragment := ⟨59, 2, true, 7, [1, 2, 3, 4, 5, 6, 7, 8]⟩
    let final : Fragment := ⟨59, 0, false, 7, [1, 2, 3, 4, 5, 6, 7, 8]⟩
    let a := run Assembly.step {} [.receive 100 (fun _ => 1) (fun _ => 2) ⟨late.bytes, by decide⟩]
    let c := FragmentCall.receive 101 (fun _ => 1) (fun _ => 2) ⟨final.bytes, by decide⟩
    (a.table.answer c).map Reassembled.len = some 8 ∧
      ∃ i, a.table.target (fun _ => 1) (fun _ => 2) final = some (i, false) ∧
        (a.step c).parts i = [late, final] ∧ late.piece.stop = 24 := by
  decide +kernel

end Aevros
