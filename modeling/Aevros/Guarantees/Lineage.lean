import Aevros.Library.Search
import Aevros.Provenance.Store

/-! # Tracing is reachability

A trace with room for all stored records gives out each record that starts at a reachable entity
once; with less room, the beginning of that.
-/

namespace Aevros

open List

def Provenance.stored (p : Provenance) : List ProvenanceRecord := p.window.filter (·.valid)

namespace TraceState

variable {t t' : TraceState} {forward : Bool} {m k : ℕ} {current : EntityRef} {r : ProvenanceRecord}

def view (t : TraceState) : Search.State ProvenanceRecord EntityRef := ⟨t.visited, t.results⟩

theorem view_enqueue {next : EntityRef}
    (hroom : next ∉ t.visited → t.visited.length < provenanceMaxRecords + 1) :
    (t.enqueue next).view =
      ⟨if next ∈ t.visited then t.visited else t.visited ++ [next], t.results⟩ := by
  unfold enqueue
  by_cases hmem : next ∈ t.visited
  · rw [dif_neg (fun h => h.1 hmem), if_pos hmem]
    rfl
  · rw [dif_pos ⟨hmem, hroom hmem⟩, if_neg hmem]
    rfl

theorem results_enqueue (t : TraceState) (next : EntityRef) :
    (t.enqueue next).results = t.results := by
  unfold enqueue
  split <;> rfl

section Search

variable {copy rest : List ProvenanceRecord} {start : EntityRef} {head : ℕ}

theorem view_follow_of_valid (hv : r.valid = true)
    (hout : r.near forward = current → t.results.length < m)
    (hseen : r.far forward ∉ t.visited → t.visited.length < provenanceMaxRecords + 1) :
    (t.follow forward m current r).view =
      Search.look (·.near forward) (·.far forward) current t.view r := by
  unfold follow Search.look
  by_cases hsrc : r.near forward = current
  · rw [if_pos ⟨hout hsrc, hv, hsrc⟩, if_pos hsrc]
    exact view_enqueue hseen
  · rw [if_neg (fun h => hsrc h.2.2), if_neg hsrc]

theorem inv_foldl_follow (done : List ProvenanceRecord) (hcopy : copy = done ++ rest)
    (hle : copy.length ≤ provenanceMaxRecords)
    (hm : (copy.filter (·.valid)).length ≤ m)
    (hcur : t.view.seen[head]? = some current)
    (h : Search.Inv (·.near forward) (·.far forward) (copy.filter (·.valid)) start head current
      (done.filter (·.valid)) t.view) :
    Search.Inv (·.near forward) (·.far forward) (copy.filter (·.valid)) start head current
        (copy.filter (·.valid)) (rest.foldl (follow forward m current) t).view ∧
      (rest.foldl (follow forward m current) t).view.seen[head]? = some current := by
  induction rest generalizing done t with
  | nil => rw [append_nil] at hcopy; exact ⟨hcopy ▸ h, hcur⟩
  | cons r rest ih =>
    cases hv : r.valid with
    | false =>
      have hsame : t.follow forward m current r = t := by simp [follow, hv]
      rw [foldl_cons, hsame]
      refine ih (done ++ [r]) (by simpa using hcopy) hcur ?_
      rwa [filter_append, filter_singleton, hv, cond_false, append_nil]
    | true =>
      have hes : copy.filter (·.valid) = done.filter (·.valid) ++ r :: rest.filter (·.valid) := by
        rw [hcopy, filter_append, filter_cons_of_pos hv]
      have hfl := length_filter_le (·.valid) copy
      have hview : (t.follow forward m current r).view =
          Search.look (·.near forward) (·.far forward) current t.view r :=
        view_follow_of_valid hv (fun hsrc => (h.out_lt hes hcur hsrc).trans_le hm)
          (fun hnew => (h.seen_lt (by simp [hes]) hnew).trans_le (by omega))
      refine ih (done ++ [r]) (by simpa using hcopy) ?_ ?_
      · rw [hview]
        exact Search.look_seen hcur
      · rw [hview, filter_append, filter_singleton, hv]
        exact h.look hes hcur

open Classical in
theorem traceLoop_perm (hle : copy.length ≤ provenanceMaxRecords)
    (hm : (copy.filter (·.valid)).length ≤ m)
    (h : Search.Inv (·.near forward) (·.far forward) (copy.filter (·.valid)) start head start []
      t.view) :
    (traceLoop copy forward m head t).Perm ((copy.filter (·.valid)).filter fun r =>
      Search.Reach (·.near forward) (·.far forward) (copy.filter (·.valid)) start
        (r.near forward)) := by
  induction hd : provenanceMaxRecords + 1 - head generalizing head t with
  | zero =>
    have hq := t.queue_le
    rw [traceLoop, dif_neg (by omega)]
    exact h.out_perm (show t.visited.length ≤ head by rw [← t.queue_eq]; omega)
  | succ d ih =>
    rw [traceLoop]
    by_cases hg : head < t.queue.length ∧ t.results.length < m
    · rw [dif_pos hg]
      have hcur : t.view.seen[head]? = some t.queue[head] := by
        show t.visited[head]? = _
        rw [← t.queue_eq, getElem?_eq_getElem hg.1]
      obtain ⟨hinv, hcur'⟩ := inv_foldl_follow [] rfl hle hm hcur
        ⟨h.start_mem, h.nodup, h.reach, h.seen_subset, h.out_eq, h.closed, by simp⟩
      exact ih (hinv.next hcur' start) (by omega)
    · rw [dif_neg hg]
      by_cases hq : head < t.queue.length
      · exact h.out_perm_of_full (hm.trans (not_lt.mp fun hlt => hg ⟨hq, hlt⟩))
      · exact h.out_perm (show t.visited.length ≤ head by rw [← t.queue_eq]; omega)

end Search

structure Cut (k : ℕ) (t t' : TraceState) : Prop where
  results_eq : t.results = t'.results.take k
  eq_of_lt : t.results.length < k → t = t'

theorem length_follow_le :
    (t.follow forward m current r).results.length ≤ t.results.length + 1 := by
  unfold follow
  split
  · rw [results_enqueue]
    exact (length_append ..).le
  · exact Nat.le_succ _

theorem results_prefix_follow : t.results <+: (t.follow forward m current r).results := by
  unfold follow
  split
  · rw [results_enqueue]
    exact prefix_append _ _
  · exact prefix_rfl

theorem results_prefix_visit (copy : List ProvenanceRecord) :
    t.results <+: (t.visit copy forward m current).results := by
  induction copy generalizing t with
  | nil => exact prefix_rfl
  | cons r copy ih => exact results_prefix_follow.trans ih

theorem results_prefix_traceLoop {copy : List ProvenanceRecord} {head : ℕ} :
    t.results <+: traceLoop copy forward m head t := by
  fun_induction traceLoop copy forward m head t with
  | case1 head t _ ih => exact (results_prefix_visit copy).trans ih
  | case2 => exact prefix_rfl

theorem Cut.take_of_full (h : Cut k t t') (hfull : ¬ t.results.length < k)
    {l : List ProvenanceRecord} (hl : t'.results <+: l) : t.results = l.take k := by
  have hlen := congrArg length h.results_eq
  rw [length_take] at hlen
  obtain ⟨l', rfl⟩ := hl
  rw [take_append_of_le_length (by omega)]
  exact h.results_eq

theorem Cut.follow (h : Cut k t t') (hkm : k ≤ m) :
    Cut k (t.follow forward k current r) (t'.follow forward m current r) := by
  by_cases hlt : t.results.length < k
  · obtain rfl := h.eq_of_lt hlt
    have heq : t.follow forward k current r = t.follow forward m current r := by
      simp only [TraceState.follow, hlt, hlt.trans_le hkm]
    rw [heq]
    exact ⟨(take_of_length_le (length_follow_le.trans hlt)).symm, fun _ => rfl⟩
  · have hstay : t.follow forward k current r = t := if_neg fun hg => hlt hg.1
    rw [hstay]
    exact ⟨h.take_of_full hlt results_prefix_follow, fun hc => absurd hc hlt⟩

theorem Cut.visit (h : Cut k t t') (hkm : k ≤ m) (copy : List ProvenanceRecord) :
    Cut k (t.visit copy forward k current) (t'.visit copy forward m current) := by
  induction copy generalizing t t' with
  | nil => exact h
  | cons r copy ih => exact ih (h.follow hkm)

theorem Cut.traceLoop_eq {copy : List ProvenanceRecord} {head : ℕ} (h : Cut k t t') (hkm : k ≤ m) :
    traceLoop copy forward k head t = (traceLoop copy forward m head t').take k := by
  fun_induction traceLoop copy forward k head t generalizing t' with
  | case1 head t hg ih =>
    -- both loops take the same steps until the places are taken
    obtain rfl := h.eq_of_lt hg.2
    rw [ih (h.visit hkm copy), traceLoop.eq_def copy forward m head,
      dif_pos ⟨hg.1, hg.2.trans_le hkm⟩]
  | case2 head t hg =>
    by_cases hlt : t.results.length < k
    · obtain rfl := h.eq_of_lt hlt
      rw [traceLoop, dif_neg (fun hg' => hg ⟨hg'.1, hlt⟩)]
      exact h.results_eq
    · exact h.take_of_full hlt results_prefix_traceLoop

end TraceState

section Trace

variable {p : Provenance} {e : EntityRef} {forward : Bool} {k m : ℕ}

theorem trace_eq_traceLoop : trace p e forward m = traceLoop p.window forward m 0 (.start e) := by
  unfold trace
  split
  · next h => rw [h, traceLoop]; rfl
  · rfl

open Classical in
theorem trace_perm (hm : p.stored.length ≤ m) : (trace p e forward m).Perm (p.stored.filter fun r =>
      Search.Reach (·.near forward) (·.far forward) p.stored e (r.near forward)) := by
  rw [trace_eq_traceLoop]
  exact TraceState.traceLoop_perm (by simpa [Provenance.window] using p.recordCount_le) hm
    (Search.Inv.init _ e e)

theorem trace_eq_take (hkm : k ≤ m) : trace p e forward k = (trace p e forward m).take k := by
  rw [trace_eq_traceLoop, trace_eq_traceLoop]
  exact TraceState.Cut.traceLoop_eq ⟨by simp [TraceState.start], fun _ => rfl⟩ hkm

theorem trace_eq_take_of_stored (hm : p.stored.length ≤ m) :
    trace p e forward k = (trace p e forward m).take k := by
  rcases Nat.le_total k m with hkm | hmk
  · exact trace_eq_take hkm
  · have hle : (trace p e forward k).length ≤ m :=
      ((trace_perm (hm.trans hmk)).length_eq.trans_le (length_filter_le _ _)).trans hm
    rw [trace_eq_take hmk, take_of_length_le hle, take_of_length_le (hle.trans hmk)]

end Trace

open Classical in
/-- With room for `k` records, the first `k` that can be reached are given out, both ways. -/
theorem traces_follow_reachability (p : Provenance) (e : EntityRef) (m : ℕ)
    (hm : p.stored.length ≤ m) :
    (provenanceTraceFrom p e m).Perm (p.stored.filter fun r =>
        Search.Reach ProvenanceRecord.source ProvenanceRecord.target p.stored e r.source) ∧
      (∀ k, provenanceTraceFrom p e k = (provenanceTraceFrom p e m).take k) ∧
      (provenanceTraceTo p e m).Perm (p.stored.filter fun r =>
        Search.Reach ProvenanceRecord.target ProvenanceRecord.source p.stored e r.target) ∧
      ∀ k, provenanceTraceTo p e k = (provenanceTraceTo p e m).take k :=
  ⟨trace_perm hm, fun _ => trace_eq_take_of_stored hm, trace_perm hm,
    fun _ => trace_eq_take_of_stored hm⟩

theorem cycle_traced :
    let a : EntityRef := ⟨.process, 3⟩
    let b : EntityRef := ⟨.network, 4⟩
    let h : Happening := ⟨a, b, .affected, .request, 9⟩
    let h' : Happening := ⟨b, a, .affected, .request, 9⟩
    let p := (provenanceRecord (provenanceRecord (provenanceInit .zero) h).2 h').2
    (provenanceTraceFrom p a 2).Perm [h.record 1, h'.record 2] ∧
      (provenanceTraceTo p a 2).Perm [h.record 1, h'.record 2] ∧
      provenanceTraceFrom p a 1 = (provenanceTraceFrom p a 2).take 1 := by
  classical
  intro a b h h' p
  have hstored : p.stored = [h.record 1, h'.record 2] := rfl
  obtain ⟨hfrom, htake, hto, -⟩ := traces_follow_reachability p a 2 (by rw [hstored]; decide)
  refine ⟨hfrom.trans (Perm.of_eq ?_), hto.trans (Perm.of_eq ?_), htake 1⟩
  · rw [hstored, filter_eq_self, forall_mem_cons, forall_mem_singleton]
    simp only [decide_eq_true_eq]
    exact ⟨.refl, .single ⟨h.record 1, mem_cons_self, rfl, rfl⟩⟩
  · rw [hstored, filter_eq_self, forall_mem_cons, forall_mem_singleton]
    simp only [decide_eq_true_eq]
    exact ⟨.single ⟨h'.record 2, by simp, rfl, rfl⟩, .refl⟩

end Aevros
