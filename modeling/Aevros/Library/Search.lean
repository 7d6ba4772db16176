import Mathlib.Data.List.Perm.Subperm
import Mathlib.Logic.Relation
import Mathlib.Tactic

/-! # Breadth-first search over a list of edges

A search visits the nodes in the order in which they are seen, and gives out the edges of each:
exactly the edges whose source can be reached.
-/

namespace Search

open List

variable {ρ ν : Type*} [DecidableEq ν] (src tgt : ρ → ν)

def Reach (es : List ρ) : ν → ν → Prop :=
  Relation.ReflTransGen fun a b => ∃ e ∈ es, src e = a ∧ tgt e = b

structure State (ρ ν : Type*) where
  seen : List ν
  out : List ρ

def look (cur : ν) (s : State ρ ν) (e : ρ) : State ρ ν :=
  if src e = cur then
    ⟨if tgt e ∈ s.seen then s.seen else s.seen ++ [tgt e], s.out ++ [e]⟩
  else s

def edgesOf (es : List ρ) (ns : List ν) : List ρ :=
  ns.flatMap fun n => es.filter fun e => src e = n

/-- The first `head` seen nodes were visited, and the edges `done` of the node `cur`. -/
structure Inv (es : List ρ) (start : ν) (head : ℕ) (cur : ν) (done : List ρ) (s : State ρ ν) :
    Prop where
  start_mem : start ∈ s.seen
  nodup : s.seen.Nodup
  reach : ∀ n ∈ s.seen, Reach src tgt es start n
  seen_subset : s.seen ⊆ start :: es.map tgt
  out_eq : s.out = edgesOf src es (s.seen.take head) ++ done.filter fun e => src e = cur
  closed : ∀ n ∈ s.seen.take head, ∀ e ∈ es, src e = n → tgt e ∈ s.seen
  closed_done : ∀ e ∈ done, src e = cur → tgt e ∈ s.seen

variable {src tgt} {es done rest : List ρ} {start cur : ν} {head : ℕ} {s : State ρ ν} {e : ρ}

theorem edgesOf_perm {ns : List ν} (hn : ns.Nodup) :
    (edgesOf src es ns).Perm (es.filter fun e => src e ∈ ns) := by
  induction ns with
  | nil => simp [edgesOf]
  | cons n ns ih =>
    rw [nodup_cons] at hn
    have hsplit := filter_append_perm (fun e => src e = n) (es.filter fun e => src e ∈ n :: ns)
    rw [filter_filter, filter_filter] at hsplit
    have h₁ : (es.filter fun e => decide (src e = n) && decide (src e ∈ n :: ns)) =
        es.filter fun e => src e = n := by
      apply filter_congr
      intro e _
      by_cases he : src e = n <;> simp [he]
    have h₂ : (es.filter fun e => (!decide (src e = n)) && decide (src e ∈ n :: ns)) =
        es.filter fun e => src e ∈ ns := by
      apply filter_congr
      intro e _
      by_cases he : src e = n
      · simp [he, hn.1]
      · simp [he]
    rw [h₁, h₂] at hsplit
    exact ((ih hn.2).append_left _).trans hsplit

theorem length_edgesOf_le {ns : List ν} (hn : ns.Nodup) : (edgesOf src es ns).length ≤ es.length :=
  (edgesOf_perm hn).length_eq.trans_le (length_filter_le _ _)

theorem edgesOf_take_succ {ns : List ν} (hlt : head < ns.length) :
    edgesOf src es (ns.take (head + 1)) =
      edgesOf src es (ns.take head) ++ es.filter fun e => src e = ns[head] := by
  rw [take_succ_eq_append_getElem hlt, edgesOf, flatMap_append, flatMap_singleton]
  rfl

theorem Inv.init (es : List ρ) (start cur : ν) : Inv src tgt es start 0 cur [] ⟨[start], []⟩ where
  start_mem := mem_singleton_self start
  nodup := nodup_singleton start
  reach n hn := mem_singleton.mp hn ▸ Relation.ReflTransGen.refl
  seen_subset := by simp
  out_eq := by simp [edgesOf]
  closed := by simp
  closed_done := by simp

theorem Inv.next (h : Inv src tgt es start head cur es s) (hcur : s.seen[head]? = some cur)
    (cur' : ν) : Inv src tgt es start (head + 1) cur' [] s := by
  obtain ⟨hlt, rfl⟩ := List.getElem?_eq_some_iff.mp hcur
  refine ⟨h.start_mem, h.nodup, h.reach, h.seen_subset, ?_, ?_, by simp⟩
  · rw [h.out_eq, edgesOf_take_succ hlt, filter_nil, append_nil]
  · intro n hn e he hsrc
    rw [take_succ_eq_append_getElem hlt, mem_append, mem_singleton] at hn
    rcases hn with hn | rfl
    · exact h.closed n hn e he hsrc
    · exact h.closed_done e he hsrc

section

variable (h : Inv src tgt es start head cur done s)

include h

theorem Inv.seen_lt (he : e ∈ es) (hnew : tgt e ∉ s.seen) : s.seen.length < es.length + 1 := by
  have hsub : tgt e :: s.seen ⊆ start :: es.map tgt :=
    cons_subset.mpr ⟨mem_cons_of_mem _ (mem_map_of_mem he), h.seen_subset⟩
  have hle := (nodup_cons.mpr ⟨hnew, h.nodup⟩).subperm hsub |>.length_le
  simpa using hle

theorem Inv.out_lt (hes : es = done ++ e :: rest) (hcur : s.seen[head]? = some cur)
    (hsrc : src e = cur) : s.out.length < es.length := by
  obtain ⟨hlt, rfl⟩ := List.getElem?_eq_some_iff.mp hcur
  have hmore : es.filter (fun e => src e = s.seen[head]) =
      done.filter (fun e => src e = s.seen[head]) ++
        e :: rest.filter (fun e => src e = s.seen[head]) := by
    rw [hes, filter_append, filter_cons_of_pos (by simpa using hsrc)]
  have hle : (edgesOf src es (s.seen.take (head + 1))).length ≤ es.length :=
    length_edgesOf_le (h.nodup.sublist (take_sublist _ _))
  rw [edgesOf_take_succ hlt, hmore, length_append, length_append, length_cons] at hle
  rw [h.out_eq, length_append]
  omega

theorem Inv.skip (hsrc : src e ≠ cur) : Inv src tgt es start head cur (done ++ [e]) s := by
  refine ⟨h.start_mem, h.nodup, h.reach, h.seen_subset, ?_, h.closed, ?_⟩
  · rw [h.out_eq]
    simp [hsrc]
  · intro e' he' hsrc'
    rcases mem_append.mp he' with he' | he'
    · exact h.closed_done e' he' hsrc'
    · exact absurd (mem_singleton.mp he' ▸ hsrc') hsrc

theorem Inv.out_snoc (hsrc : src e = cur) : s.out ++ [e] = edgesOf src es (s.seen.take head) ++
      (done ++ [e]).filter fun e => src e = cur := by
  rw [h.out_eq]
  simp [hsrc]

theorem Inv.again (hsrc : src e = cur) (hseen : tgt e ∈ s.seen) :
    Inv src tgt es start head cur (done ++ [e]) { s with out := s.out ++ [e] } := by
  refine ⟨h.start_mem, h.nodup, h.reach, h.seen_subset, h.out_snoc hsrc, h.closed, ?_⟩
  intro e' he' hsrc'
  rcases mem_append.mp he' with he' | he'
  · exact h.closed_done e' he' hsrc'
  · rwa [mem_singleton.mp he']

theorem Inv.discover (he : e ∈ es) (hcur : s.seen[head]? = some cur) (hsrc : src e = cur)
    (hnew : tgt e ∉ s.seen) :
    Inv src tgt es start head cur (done ++ [e])
      { s with seen := s.seen ++ [tgt e], out := s.out ++ [e] } := by
  obtain ⟨hlt, hcur'⟩ := List.getElem?_eq_some_iff.mp hcur
  have hedge : Reach src tgt es start (tgt e) :=
    (h.reach cur (hcur' ▸ getElem_mem hlt)).tail ⟨e, he, hsrc, rfl⟩
  have htake : (s.seen ++ [tgt e]).take head = s.seen.take head :=
    take_append_of_le_length hlt.le
  constructor
  case start_mem => exact mem_append_left _ h.start_mem
  case nodup => exact h.nodup.append (nodup_singleton _) (by simpa using hnew)
  case reach =>
    intro n hn
    rcases mem_append.mp hn with hn | hn
    · exact h.reach n hn
    · rwa [mem_singleton.mp hn]
  case seen_subset =>
    apply append_subset.mpr
    exact ⟨h.seen_subset, by simpa using Or.inr ⟨e, he, rfl⟩⟩
  case out_eq => rw [htake]; exact h.out_snoc hsrc
  case closed =>
    intro n hn e' he' hsrc'
    rw [htake] at hn
    exact mem_append_left _ (h.closed n hn e' he' hsrc')
  case closed_done =>
    intro e' he' hsrc'
    rcases mem_append.mp he' with he' | he'
    · exact mem_append_left _ (h.closed_done e' he' hsrc')
    · rw [mem_singleton.mp he']
      exact mem_append_right _ (mem_singleton_self _)

theorem Inv.look (hes : es = done ++ e :: rest) (hcur : s.seen[head]? = some cur) :
    Inv src tgt es start head cur (done ++ [e]) (look src tgt cur s e) := by
  rw [Search.look]
  split_ifs with hsrc hseen
  · exact h.again hsrc hseen
  · exact h.discover (by simp [hes]) hcur hsrc hseen
  · exact h.skip hsrc

end

theorem Inv.seen_iff (h : Inv src tgt es start head cur [] s) (hend : s.seen.length ≤ head)
    {n : ν} : n ∈ s.seen ↔ Reach src tgt es start n := by
  refine ⟨h.reach n, fun hn => ?_⟩
  have hclosed := h.closed
  rw [take_of_length_le hend] at hclosed
  induction hn with
  | refl => exact h.start_mem
  | tail _ hedge ih =>
    obtain ⟨e, he, hsrc, rfl⟩ := hedge
    exact hclosed _ ih e he hsrc

open Classical in
theorem Inv.out_perm (h : Inv src tgt es start head cur [] s) (hend : s.seen.length ≤ head) :
    s.out.Perm (es.filter fun e => Reach src tgt es start (src e)) := by
  rw [h.out_eq, take_of_length_le hend, filter_nil, append_nil]
  refine (edgesOf_perm h.nodup).trans (Perm.of_eq (filter_congr ?_))
  simp [h.seen_iff hend]

open Classical in
theorem Inv.out_perm_of_full (h : Inv src tgt es start head cur [] s)
    (hfull : es.length ≤ s.out.length) :
    s.out.Perm (es.filter fun e => Reach src tgt es start (src e)) := by
  have hperm : s.out.Perm (es.filter fun e => src e ∈ s.seen.take head) := by
    rw [h.out_eq, filter_nil, append_nil]
    exact edgesOf_perm (h.nodup.sublist (take_sublist _ _))
  have hall : es.filter (fun e => src e ∈ s.seen.take head) = es :=
    filter_sublist.eq_of_length_le (hperm.length_eq ▸ hfull)
  have hreach : es.filter (fun e => Reach src tgt es start (src e)) = es := by
    apply filter_eq_self.mpr
    intro e he
    have hmem := filter_eq_self.mp hall e he
    exact decide_eq_true (h.reach _ (mem_of_mem_take (of_decide_eq_true hmem)))
  rw [hreach]
  exact hperm.trans (Perm.of_eq hall)

theorem look_seen (hcur : s.seen[head]? = some cur) :
    (look src tgt cur s e).seen[head]? = some cur := by
  obtain ⟨hlt, -⟩ := List.getElem?_eq_some_iff.mp hcur
  unfold look
  split
  · split
    · exact hcur
    · rwa [getElem?_append_left hlt]
  · exact hcur

end Search
