import Aevros.Guarantees.Partition

/-! # Accounts of the buddy allocator

What is free is what the callers do not hold: `buddy_free_memory` reports the bytes, and the blocks
themselves do not depend on the calls that led to them.
-/

namespace Aevros

open Runs List Dyadic Arena Memory

theorem toNat_addFree {next : Word → Word} {bytes free p : Word} {fuel : ℕ} {l : List Word}
    (hc : Chain.IsChain 0 next p l) (hfuel : l.length < fuel)
    (hsum : free.toNat + l.length * bytes.toNat < 2 ^ 32) :
    (addFree next bytes fuel free p).toNat = free.toNat + l.length * bytes.toNat := by
  induction l generalizing p free fuel with
  | nil =>
    obtain rfl : p = 0 := hc
    cases fuel <;> simp [addFree]
  | cons a l ih =>
    obtain ⟨rfl, hne, hc⟩ := hc
    obtain _ | fuel := fuel
    · exact absurd hfuel (Nat.not_lt_zero _)
    rw [length_cons] at hfuel
    rw [length_cons, Nat.add_mul, Nat.one_mul] at hsum ⊢
    have hadd : (free + bytes).toNat = free.toNat + bytes.toNat :=
      BitVec.toNat_add_of_lt (by omega)
    have hroom : ¬ 0xFFFFFFFF - bytes < free := by
      bv_omega
    rw [addFree, if_neg hne, if_neg hroom, ih hc (by omega) (by omega), hadd]
    omega

instance (x : Extent) (a : ℕ) : Decidable (x.Holds a) := inferInstanceAs (Decidable (_ ∧ _))

/-- The pages of free blocks of an order below `n`. -/
def freePages (f : Free) (n : ℕ) : ℕ := ((range n).map fun o => (f o).length * 2 ^ o).sum

theorem freePages_succ (f : Free) (n : ℕ) :
    freePages f (n + 1) = freePages f n + (f n).length * 2 ^ n := by
  simp [freePages, range_succ]

theorem freePages_mono (f : Free) {n n' : ℕ} (h : n ≤ n') : freePages f n ≤ freePages f n' := by
  induction h with
  | refl => exact le_rfl
  | step _ ih =>
    rw [freePages_succ]
    exact ih.trans (Nat.le_add_right _ _)

theorem sum_blocks (f : Free) (top : ℕ) :
    ((blocks top f).map fun b => 2 ^ b.order).sum = freePages f (top + 1) := by
  simp [blocks, freePages, Function.comp_def, flatMap_def, sum_flatten]

namespace Usage

variable {u u' : Usage} {roots bs bs' : List Block} {f f' : Free}

section

variable (h : u.Stands roots f bs)

include h

theorem Stands.cover_held (c : ℕ) :
    cover bs c = u.held.countP fun x => x.Holds (4096 * c) := by
  rw [h.held_perm.countP_eq, countP_map, cover]
  refine countP_congr fun b hb => ?_
  simp only [Function.comp_apply, decide_eq_true_eq]
  rw [Extent.holds_ofBlock_iff (h.placed (mem_append_right _ hb)) h.region.stop_le,
    Nat.mul_div_cancel_left c (by decide)]

theorem Stands.freeBlocks_perm (h' : u'.Stands roots f' bs') (hheld : u.held.Perm u'.held) :
    u.heap.freeBlocks.Perm u'.heap.freeBlocks := by
  rw [h.freeBlocks_eq, h'.freeBlocks_eq]
  refine (h.inv.blocks_perm h'.inv h.region.length_le fun c => ?_).map _
  rw [h.cover_held, h'.cover_held]
  exact hheld.countP_eq _

theorem Stands.sum_pages : freePages f (maxOrder + 1) + (bs.map fun b => 2 ^ b.order).sum =
    (roots.map fun b => 2 ^ b.order).sum := by
  have hbelow : ∀ b, Placed u.heap b → b.first + 2 ^ b.order ≤ 2 ^ 19 := by
    intro b hb
    have := hb.le_stop
    have := h.region.stop_le
    omega
  rw [← sum_blocks, ← sum_append, ← map_append, sum_sizes fun b hb => hbelow b (h.placed hb),
    sum_sizes fun b hb => hbelow b (h.region.placed b hb)]
  exact Finset.sum_congr rfl fun c _ => h.inv.cover_eq c

theorem Stands.sum_roots_le : 4096 * (roots.map fun b => 2 ^ b.order).sum ≤ 2 ^ 31 := by
  have hplaced := h.region.placed
  have hstop := h.region.stop_le
  match roots, h.region.length_le with
  | [], _ => simp
  | [r], _ =>
    have hr := (hplaced r (mem_singleton_self r)).le_stop
    simp only [map_cons, map_nil, sum_cons, sum_nil]
    omega

theorem Stands.toNat_buddyFreeMemory :
    (buddyFreeMemory u.heap).toNat = 4096 * freePages f (maxOrder + 1) := by
  have hbound : 4096 * freePages f (maxOrder + 1) < 2 ^ 32 := by
    have := h.sum_pages
    have := h.sum_roots_le
    omega
  have hloop : ∀ n ≤ maxOrder + 1, ((range n).foldl (fun free o =>
      addFree u.heap.next (blockBytes o) walkBound free (u.heap.freeLists o)) 0).toNat =
        4096 * freePages f n := by
    intro n hn
    induction n with
    | zero => rfl
    | succ n ih =>
      have hle := freePages_mono f hn
      rw [freePages_succ] at hle
      have ih := ih (by omega)
      have hbytes : (blockBytes n).toNat = 4096 * 2 ^ n := by
        rw [toNat_blockBytes (by omega), Nat.pow_add, Nat.mul_comm]
      rw [range_succ, foldl_concat, toNat_addFree (h.rep n (by omega)) (h.rep.length_lt (by omega)),
        ih, hbytes, length_map, freePages_succ]
      · ring
      · rw [ih, hbytes, length_map, Nat.mul_left_comm, ← Nat.mul_add]
        omega
  exact hloop _ le_rfl

theorem Stands.sum_bytes : (buddyFreeMemory u.heap).toNat + (u.held.map Extent.bytes).sum =
    4096 * (roots.map fun b => 2 ^ b.order).sum := by
  have hheld : (u.held.map Extent.bytes).sum = 4096 * (bs.map fun b => 2 ^ b.order).sum := by
    rw [(h.held_perm.map Extent.bytes).sum_eq, map_map, ← sum_map_mul_left]
    rfl
  rw [h.toNat_buddyFreeMemory, hheld, ← Nat.mul_add, h.sum_pages]

end

end Usage

/-- No byte is lost: what was free at first is free or held after every run. -/
theorem free_memory_conserved (next : Word → Word) (start stop : Word) (ha : start.toNat ≤ 2 ^ 31)
    (hz : stop.toNat ≤ 2 ^ 31) (calls : List HeapCall)
    (hl : Along Usage.step Usage.Legal (.unused (buddyInit next start stop)) calls) :
    let u := run Usage.step (.unused (buddyInit next start stop)) calls
    (buddyFreeMemory u.heap).toNat + (u.held.map Extent.bytes).sum =
      (buddyFreeMemory (buddyInit next start stop)).toNat := by
  obtain ⟨f, hinit, hrun⟩ := Usage.stands_run next ha hz
  obtain ⟨f', bs, h⟩ := hrun calls hl
  have hfirst := hinit.sum_bytes
  rw [Usage.heap_unused, Usage.held_unused, map_nil, sum_nil, Nat.add_zero] at hfirst
  exact h.sum_bytes.trans hfirst.symm

theorem free_memory_with_page_held : (buddyFreeMemory (run Usage.step
    (.unused (buddyInit (fun _ => 0) 8192 16384)) [.alloc 0]).heap).toNat + 4096 = 8192 :=
  free_memory_conserved (fun _ => 0) 8192 16384 (by decide) (by decide) [.alloc 0]
    ⟨trivial, trivial⟩

/-- Which blocks are free depends on the blocks that are held, not on the calls before. -/
theorem free_blocks_determined (next : Word → Word) (start stop : Word)
    (ha : start.toNat ≤ 2 ^ 31) (hz : stop.toNat ≤ 2 ^ 31) (calls calls' : List HeapCall)
    (hl : Along Usage.step Usage.Legal (.unused (buddyInit next start stop)) calls)
    (hl' : Along Usage.step Usage.Legal (.unused (buddyInit next start stop)) calls') :
    let u := run Usage.step (.unused (buddyInit next start stop)) calls
    let u' := run Usage.step (.unused (buddyInit next start stop)) calls'
    u.held.Perm u'.held → u.heap.freeBlocks.Perm u'.heap.freeBlocks := by
  obtain ⟨f, -, hrun⟩ := Usage.stands_run next ha hz
  obtain ⟨_, _, h⟩ := hrun calls hl
  obtain ⟨_, _, h'⟩ := hrun calls' hl'
  exact h.freeBlocks_perm h'

theorem page_taken_and_returned :
    (run Usage.step (.unused (buddyInit (fun _ => 0) 8192 16384))
      [.alloc 0, .free ⟨8192, 0⟩]).heap.freeBlocks.Perm
        (buddyInit (fun _ => 0) 8192 16384).freeBlocks := by
  refine free_blocks_determined (fun _ => 0) 8192 16384 (by decide) (by decide) _ []
    ⟨trivial, ?_, trivial⟩ trivial ?_
  · show _ ∈ _
    decide +kernel
  · decide +kernel

end Aevros
