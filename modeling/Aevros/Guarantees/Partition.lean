import Aevros.Library.Runs
import Aevros.Memory.Refinement

/-! # The memory of the buddy allocator

The free blocks and the held ones always are the block that `buddy_init` added, cut into aligned
blocks that do not overlap, and free buddies are joined.
-/

namespace Aevros

open Runs List Dyadic Arena Memory

structure Extent where
  address : Word
  order : ℕ
  deriving DecidableEq

namespace Extent

def bytes (x : Extent) : ℕ := 4096 * 2 ^ x.order

def Holds (x : Extent) (a : ℕ) : Prop := x.address.toNat ≤ a ∧ a < x.address.toNat + x.bytes

def ofBlock (b : Block) : Extent := ⟨Memory.address b, b.order⟩

variable {m : Buddy} {b : Block}

theorem holds_ofBlock_iff (hp : Placed m b) (hs : m.stop.toNat ≤ 2 ^ 31) {a : ℕ} :
    (ofBlock b).Holds a ↔ b.Covers (a / 4096) := by
  rw [Holds, bytes, ofBlock, hp.toNat_address hs, Block.covers_iff]
  constructor
  · rintro ⟨h₁, h₂⟩
    dsimp only at h₂
    omega
  · dsimp only
    omega

end Extent

def Buddy.freeBlocks (m : Buddy) : List Extent :=
  (range (maxOrder + 1)).flatMap fun o =>
    (Chain.nodes 0 m.next walkBound (m.freeLists o)).map fun p => ⟨p, o⟩

def Buddy.Acyclic (m : Buddy) : Prop :=
  ∀ o ≤ maxOrder, ∃ l, Chain.IsChain 0 m.next (m.freeLists o) l

/-- The allocator with the blocks that callers hold; `returned` is whether all calls returned. -/
structure Usage where
  heap : Buddy
  held : List Extent := []
  returned : Bool := true

inductive HeapCall
  | alloc (order : ℤ)
  | free (x : Extent)
  | write (p value : Word)

namespace Usage

def step (u : Usage) : HeapCall → Usage
  | .alloc order =>
    match buddyAlloc u.heap order with
    | none => { u with returned := false }
    | some (p, m) =>
      { u with heap := m, held := if p = 0 then u.held else ⟨p, order.toNat⟩ :: u.held }
  | .free x =>
    match buddyFree u.heap x.address x.order with
    | none => { u with returned := false }
    | some m => { u with heap := m, held := u.held.erase x }
  | .write p value => { u with heap := { u.heap with next := Function.update u.heap.next p value } }

/-- A block is given back by its holder and with its order, and written to by its holder. -/
def Legal (u : Usage) : HeapCall → Prop
  | .alloc _ => True
  | .free x => x ∈ u.held
  | .write p _ => ∃ x ∈ u.held, x.Holds p.toNat

def unused (m : Buddy) : Usage := { heap := m }

variable {u : Usage} {roots bs : List Block} {f : Free} {b : Block} {m : Buddy}

@[simp]
theorem heap_unused : (unused m).heap = m := rfl

@[simp]
theorem held_unused : (unused m).held = [] := rfl

/-- The lists stand for `f`, the holders have `bs`, and both are cut from `roots`. -/
structure Stands (u : Usage) (roots : List Block) (f : Free) (bs : List Block) : Prop where
  rep : Rep u.heap f
  region : Region u.heap roots
  inv : Arena.Inv maxOrder roots f bs
  held_perm : u.held.Perm (bs.map Extent.ofBlock)
  returned : u.returned = true

section

variable (h : u.Stands roots f bs)

include h

theorem Stands.within : Within roots f := by
  intro c
  rw [← h.inv.cover_eq c, cover_append]
  exact Nat.le_add_right _ _

theorem Stands.joins (hb : b ∈ bs) : Joins roots f b := by
  intro c
  rw [← h.inv.cover_eq c, cover_append, cover_perm (perm_cons_erase hb), cover_cons,
    cover_cons, cover_nil]
  omega

theorem Stands.alloc (order : ℤ) : ∃ f' bs', (u.step (.alloc order)).Stands roots f' bs' ∧
      Kept u.heap (u.step (.alloc order)).heap := by
  cases hv : buddyValidOrder order with
  | false =>
    refine ⟨f, bs, ?_⟩
    simp only [step, buddyAlloc, hv]
    exact ⟨h, .refl _⟩
  | true =>
    obtain ⟨o, rfl⟩ : ∃ o : ℕ, order = o := by
      simp only [buddyValidOrder, Bool.and_eq_true, decide_eq_true_eq] at hv
      exact ⟨order.toNat, (Int.toNat_of_nonneg hv.1).symm⟩
    have ho : o ≤ maxOrder := buddyValidOrder_natCast.mp hv
    obtain ⟨m', hcall, hrep, hkept⟩ := h.rep.allocOrder h.region h.within ho
    have hreg := h.region.kept hkept
    have hinv := h.inv.alloc ho
    have hstep : u.step (.alloc o) = { u with
        heap := m'
        held := if ((Arena.alloc maxOrder f o).1.map address).getD 0 = 0 then u.held
          else ⟨((Arena.alloc maxOrder f o).1.map address).getD 0, o⟩ :: u.held } := by
      simp only [step, buddyAlloc, hv, if_true, Int.toNat_natCast, hcall]
    rw [hstep]
    refine ⟨_, _, ⟨hrep, hreg, hinv, ?_, h.returned⟩, hkept⟩
    cases hb : (Arena.alloc maxOrder f o).1 with
    | none => simpa using h.held_perm
    | some b =>
      -- the block lies in the region, so its address is not null
      rw [hb] at hinv
      have hplaced := (hreg.of_cover (b := b) fun c => by
        rw [← hinv.cover_eq c, cover_append, Option.toList_some, cover_append]
        omega).1
      have hne : address b ≠ 0 := hplaced.address_ne_zero hreg.stop_le
      simp only [Option.map_some, Option.getD_some, if_neg hne]
      rw [← order_of_alloc hb]
      exact h.held_perm.cons _

theorem Stands.free {x : Extent} (hx : x ∈ u.held) :
    ∃ f' bs', (u.step (.free x)).Stands roots f' bs' ∧ Kept u.heap (u.step (.free x)).heap := by
  obtain ⟨b, hb, rfl⟩ := mem_map.mp (h.held_perm.mem_iff.mp hx)
  have hj := h.joins hb
  obtain ⟨m', hcall, hrep, hkept⟩ := h.rep.buddyFree h.region hj
  have ho := (hj.placed h.region).2
  have hstep : u.step (.free (.ofBlock b)) =
      { u with heap := m', held := u.held.erase (.ofBlock b) } := by
    simp only [step, Extent.ofBlock, hcall]
  rw [hstep]
  refine ⟨_, _, ⟨hrep, h.region.kept hkept, h.inv.release h.region.order_le hb (by omega), ?_,
    h.returned⟩, hkept⟩
  apply Perm.cons_inv (a := Extent.ofBlock b)
  refine (perm_cons_erase hx).symm.trans (h.held_perm.trans ?_)
  exact (perm_cons_erase hb).map _

theorem Stands.write {p : Word} (hp : ∃ x ∈ u.held, x.Holds p.toNat) (value : Word) :
    (u.step (.write p value)).Stands roots f bs := by
  obtain ⟨x, hx, hbyte⟩ := hp
  obtain ⟨b, hb, rfl⟩ := mem_map.mp (h.held_perm.mem_iff.mp hx)
  have hj := h.joins hb
  refine ⟨h.rep.write (fun b' hb' he => ?_) value, h.region.congr rfl rfl, h.inv, h.held_perm,
    h.returned⟩
  -- a free block that begins at the address would begin in a held one
  apply hj.not_covers h.region hb'
  rw [Extent.holds_ofBlock_iff (hj.placed h.region).1 h.region.stop_le, ← he,
    (h.within.placed h.region hb').toNat_address h.region.stop_le,
    Nat.mul_div_cancel_left _ (by norm_num)] at hbyte
  exact hbyte

theorem Stands.step {e : HeapCall} (he : u.Legal e) : ∃ f' bs', (u.step e).Stands roots f' bs' := by
  cases e with
  | alloc order =>
    obtain ⟨f', bs', hst, -⟩ := h.alloc order
    exact ⟨f', bs', hst⟩
  | free x =>
    obtain ⟨f', bs', hst, -⟩ := h.free he
    exact ⟨f', bs', hst⟩
  | write p value => exact ⟨f, bs, h.write he value⟩

omit h in
theorem stands_unused (hrep : Rep m f) (hreg : Region m roots)
    (hinv : Arena.Inv maxOrder roots f []) : (unused m).Stands roots f [] :=
  ⟨hrep, hreg, hinv, Perm.nil, rfl⟩

omit h in
theorem stands_run (next : Word → Word) {start stop : Word} (ha : start.toNat ≤ 2 ^ 31)
    (hz : stop.toNat ≤ 2 ^ 31) :
    ∃ f, (unused (buddyInit next start stop)).Stands (blocks maxOrder f) f [] ∧
      ∀ calls, Along step Legal (unused (buddyInit next start stop)) calls →
        ∃ f' bs', (run step (unused (buddyInit next start stop)) calls).Stands
          (blocks maxOrder f) f' bs' := by
  obtain ⟨roots, f, hrep, hreg, rfl, hinv⟩ := init_spec next ha hz
  have hinit := stands_unused hrep hreg hinv
  refine ⟨f, hinit, fun calls hl => ?_⟩
  exact hl.run_invariant (I := fun u => ∃ f' bs', u.Stands (blocks maxOrder f) f' bs')
    (fun u e ⟨_, _, h⟩ he => h.step he) ⟨_, _, hinit⟩

theorem Stands.freeBlocks_eq : u.heap.freeBlocks = (blocks maxOrder f).map Extent.ofBlock := by
  unfold Buddy.freeBlocks blocks
  rw [map_flatMap]
  apply flatMap_congr
  intro o ho
  have ho' : o ≤ maxOrder := Nat.lt_succ_iff.mp (mem_range.mp ho)
  rw [(h.rep o ho').nodes_eq (h.rep.length_lt ho'), map_map, map_map]
  rfl

omit h in
theorem Stands.length_freeBlocks_le (h : (unused m).Stands (blocks maxOrder f) f []) :
    m.freeBlocks.length ≤ 1 := by
  have heq := h.freeBlocks_eq
  rw [heap_unused] at heq
  rw [heq, length_map]
  exact h.region.length_le

theorem Stands.perm :
    (u.heap.freeBlocks ++ u.held).Perm ((blocks maxOrder f ++ bs).map Extent.ofBlock) := by
  rw [h.freeBlocks_eq, map_append]
  exact h.held_perm.append_left _

theorem Stands.placed (hb : b ∈ blocks maxOrder f ++ bs) : Placed u.heap b := by
  refine (h.region.of_cover fun c => ?_).1
  rw [← h.inv.cover_eq c, cover_perm (perm_cons_erase hb), cover_cons, cover_cons, cover_nil]
  omega

theorem Stands.aligned {x : Extent} (hx : x ∈ u.heap.freeBlocks ++ u.held) :
    x.bytes ∣ x.address.toNat := by
  obtain ⟨b, hb, rfl⟩ := mem_map.mp (h.perm.mem_iff.mp hx)
  have hn : (Extent.ofBlock b).address.toNat = 4096 * b.first :=
    (h.placed hb).toNat_address h.region.stop_le
  rw [hn, Block.first, Nat.mul_comm b.index]
  exact Nat.mul_dvd_mul_left _ (Nat.dvd_mul_right _ _)

theorem Stands.disjoint :
    (u.heap.freeBlocks ++ u.held).Pairwise fun x y => ∀ a, x.Holds a → ¬ y.Holds a := by
  refine (h.perm.pairwise_iff fun hxy a hy hx => hxy a hx hy).mpr ?_
  rw [pairwise_map]
  have hle : ∀ c, cover (blocks maxOrder f ++ bs) c ≤ 1 :=
    fun c => (h.inv.cover_eq c).trans_le (h.region.cover_le c)
  refine (pairwise_of_cover_le hle).imp_of_mem fun hb hb' hd a ha ha' => ?_
  rw [Extent.holds_ofBlock_iff (h.placed hb) h.region.stop_le] at ha
  rw [Extent.holds_ofBlock_iff (h.placed hb') h.region.stop_le] at ha'
  exact hd _ ha ha'

theorem Stands.exists_holds_iff {a : ℕ} :
    (∃ x ∈ u.heap.freeBlocks ++ u.held, x.Holds a) ↔ 0 < cover roots (a / 4096) := by
  rw [← h.inv.cover_eq, cover_pos_iff]
  constructor
  · rintro ⟨x, hx, ha⟩
    obtain ⟨b, hb, rfl⟩ := mem_map.mp (h.perm.mem_iff.mp hx)
    exact ⟨b, hb, (Extent.holds_ofBlock_iff (h.placed hb) h.region.stop_le).mp ha⟩
  · rintro ⟨b, hb, hc⟩
    exact ⟨_, h.perm.mem_iff.mpr (mem_map_of_mem hb),
      (Extent.holds_ofBlock_iff (h.placed hb) h.region.stop_le).mpr hc⟩

theorem Stands.address_ne_buddy {r : Block} (hr : r ∈ roots) {x y : Extent}
    (hx : x ∈ u.heap.freeBlocks) (hy : y ∈ u.heap.freeBlocks) (hxy : x.order = y.order)
    (hlt : x.order < r.order) : y.address ≠ x.address ^^^ blockBytes x.order := by
  rw [h.freeBlocks_eq] at hx hy
  obtain ⟨b, hb, rfl⟩ := mem_map.mp hx
  obtain ⟨b', hb', rfl⟩ := mem_map.mp hy
  intro heq
  have heq' : address b' = address b.buddy := heq.trans (address_buddy b)
  have hbuddy := (h.placed (mem_append_left _ hb)).eq_buddy
    (h.placed (mem_append_left _ hb')) h.region.stop_le hxy.symm heq'
  rw [hbuddy, mem_blocks_iff] at hb'
  exact h.inv.separated r hr b hlt (mem_blocks_iff.mp hb).2 hb'.2

theorem Stands.blocks_eq (hheld : u.held = []) : blocks maxOrder f = roots := by
  have hbs : bs = [] := map_eq_nil_iff.mp (nil_perm.mp (hheld ▸ h.held_perm))
  subst hbs
  exact h.inv.blocks_eq h.region.length_le

end

end Usage

/-- Free and held blocks are aligned, do not overlap and make up the block that was added. -/
theorem memory_partitioned (next : Word → Word) (start stop : Word) (ha : start.toNat ≤ 2 ^ 31)
    (hz : stop.toNat ≤ 2 ^ 31) (calls : List HeapCall)
    (hl : Along Usage.step Usage.Legal (.unused (buddyInit next start stop)) calls) :
    let u := run Usage.step (.unused (buddyInit next start stop)) calls
    let added := (buddyInit next start stop).freeBlocks
    u.returned = true ∧ u.heap.Acyclic ∧ added.length ≤ 1 ∧
      (∀ x ∈ u.heap.freeBlocks ++ u.held, x.bytes ∣ x.address.toNat) ∧
      (u.heap.freeBlocks ++ u.held).Pairwise (fun x y => ∀ a, x.Holds a → ¬ y.Holds a) ∧
      ∀ a, (∃ x ∈ u.heap.freeBlocks ++ u.held, x.Holds a) ↔ ∃ x ∈ added, x.Holds a := by
  obtain ⟨f, hinit, hrun⟩ := Usage.stands_run next ha hz
  obtain ⟨f', bs, h⟩ := hrun calls hl
  refine ⟨h.returned, fun o ho => ⟨_, h.rep o ho⟩, ?_, fun x hx => h.aligned hx, h.disjoint,
    fun a => ?_⟩
  · exact hinit.length_freeBlocks_le
  · rw [h.exists_holds_iff, ← hinit.exists_holds_iff, Usage.heap_unused, Usage.held_unused,
      append_nil]

theorem page_taken_partitioned :
    let u := run Usage.step (.unused (buddyInit (fun _ => 0) 8192 16384)) [.alloc 0]
    u.heap.freeBlocks = [⟨12288, 0⟩] ∧ u.held = [⟨8192, 0⟩] ∧ u.heap.Acyclic ∧
      ∀ a, (∃ x ∈ [(⟨12288, 0⟩ : Extent), ⟨8192, 0⟩], x.Holds a) ↔
        ∃ x ∈ [(⟨8192, 1⟩ : Extent)], x.Holds a := by
  intro u
  have hfree : u.heap.freeBlocks = [⟨12288, 0⟩] := by decide +kernel
  have hheld : u.held = [⟨8192, 0⟩] := by decide +kernel
  obtain ⟨_, hacyclic, _, _, _, hbytes⟩ :=
    memory_partitioned (fun _ => 0) 8192 16384 (by decide) (by decide) [.alloc 0] ⟨trivial, trivial⟩
  exact ⟨hfree, hheld, hacyclic, hbytes⟩

/-- Two free blocks of one order are never buddies. -/
theorem buddies_coalesced (next : Word → Word) (start stop : Word) (ha : start.toNat ≤ 2 ^ 31)
    (hz : stop.toNat ≤ 2 ^ 31) (calls : List HeapCall)
    (hl : Along Usage.step Usage.Legal (.unused (buddyInit next start stop)) calls) :
    let u := run Usage.step (.unused (buddyInit next start stop)) calls
    let added := (buddyInit next start stop).freeBlocks
    added.length ≤ 1 ∧ (∀ r ∈ added, ∀ x ∈ u.heap.freeBlocks, ∀ y ∈ u.heap.freeBlocks,
        x.order = y.order → x.order < r.order → y.address ≠ x.address ^^^ blockBytes x.order) ∧
      (u.held = [] → u.heap.freeBlocks = added) := by
  intro u added
  obtain ⟨f, hinit, hrun⟩ := Usage.stands_run next ha hz
  obtain ⟨f', bs, h⟩ := hrun calls hl
  have hadded : added = (blocks maxOrder f).map Extent.ofBlock := by
    rw [← hinit.freeBlocks_eq, Usage.heap_unused]
  refine ⟨hinit.length_freeBlocks_le, fun r hr => ?_, fun hheld => ?_⟩
  · obtain ⟨c, hc, rfl⟩ := mem_map.mp (hadded ▸ hr)
    exact fun x hx y hy hxy hlt => h.address_ne_buddy hc hx hy hxy hlt
  · rw [hadded, h.freeBlocks_eq, h.blocks_eq hheld]

theorem pages_returned_coalesced : (run Usage.step (.unused (buddyInit (fun _ => 0) 8192 16384))
      [.alloc 0, .alloc 0, .free ⟨8192, 0⟩, .free ⟨12288, 0⟩]).heap.freeBlocks = [⟨8192, 1⟩] := by
  have hlegal : Along Usage.step Usage.Legal (.unused (buddyInit (fun _ => 0) 8192 16384))
      [.alloc 0, .alloc 0, .free ⟨8192, 0⟩, .free ⟨12288, 0⟩] := by
    refine ⟨trivial, trivial, ?_, ?_, trivial⟩
    · show _ ∈ _
      decide +kernel
    · show _ ∈ _
      decide +kernel
  obtain ⟨_, _, hempty⟩ :=
    buddies_coalesced (fun _ => 0) 8192 16384 (by decide) (by decide) _ hlegal
  rw [hempty (by decide +kernel)]
  decide +kernel

end Aevros
