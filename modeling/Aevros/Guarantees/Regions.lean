import Aevros.Guarantees.Partition
import Aevros.Memory.Heap

/-! # Memory of the kernel heap

As long as no request is so large that its header no longer fits below 2³², what the heap hands out
lies in its memory and overlaps nothing else.
-/

namespace Aevros

open Runs BitVec List Function Option

/-- Memory that was handed out, by its address and the size that was asked for. -/
structure Grant where
  ptr : Word
  size : Word
  deriving DecidableEq

theorem Usage.Stands.inside {u : Usage} {roots bs : List Dyadic.Block} {f : Arena.Free}
    (h : u.Stands roots f bs) {x : Extent} (hx : x ∈ u.heap.freeBlocks ++ u.held) :
    u.heap.start.toNat ≤ x.address.toNat ∧ x.address.toNat + x.bytes ≤ u.heap.stop.toNat ∧
      u.heap.stop.toNat ≤ 2 ^ 31 ∧ 0 < x.address.toNat := by
  obtain ⟨b, hb, rfl⟩ := mem_map.mp (h.perm.mem_iff.mp hx)
  have hp := h.placed hb
  have hn : (Extent.ofBlock b).address.toNat = 4096 * b.first := hp.toNat_address h.region.stop_le
  have hstop := hp.le_stop
  have hpos := hp.pos
  rw [hn, Extent.bytes]
  refine ⟨hp.start_le, ?_, h.region.stop_le, by omega⟩
  rwa [← Nat.mul_add]

def Extent.Apart (x y : Extent) : Prop := ∀ a, x.Holds a → ¬ y.Holds a

instance : Std.Symm Extent.Apart := ⟨fun _ _ h a hy hx => h a hx hy⟩

instance {α : Type} (f : α → Extent) : Std.Symm fun x y => (f x).Apart (f y) :=
  ⟨fun _ _ h => symm h⟩

theorem Usage.Stands.bounds_step {u : Usage} {roots bs : List Dyadic.Block} {f : Arena.Free}
    (h : u.Stands roots f bs) {e : HeapCall} (he : u.Legal e) :
    (u.step e).heap.start = u.heap.start ∧ (u.step e).heap.stop = u.heap.stop := by
  cases e with
  | alloc order =>
    obtain ⟨-, -, -, hk⟩ := h.alloc order
    exact ⟨hk.start, hk.stop⟩
  | free x =>
    obtain ⟨-, -, -, hk⟩ := h.free he
    exact ⟨hk.start, hk.stop⟩
  | write p value => exact ⟨rfl, rfl⟩

theorem bounds_buddyInit (next : Word → Word) (start stop : Word) :
    (buddyInit next start stop).start = start ∧ (buddyInit next start stop).stop = stop := by
  rcases Memory.buddyInit_cases next start stop with h | ⟨o, -, -, h⟩
  · rw [h]
    exact ⟨rfl, rfl⟩
  · rw [h, Memory.start_addToList, Memory.stop_addToList]
    exact ⟨rfl, rfl⟩

theorem Extent.bytes_pos (x : Extent) : 4096 ≤ x.bytes :=
  Nat.le_mul_of_pos_right _ (Nat.two_pow_pos _)

namespace Grant

section

variable (g : Grant)

def Holds (a : ℕ) : Prop := g.ptr.toNat ≤ a ∧ a < g.ptr.toNat + g.size.toNat

def large : Bool := 128 < g.size.toNat

/-- The byte at `a` belongs to the header in front of the memory. -/
def Header (a : ℕ) : Prop :=
  g.large = true ∧ g.ptr.toNat ≤ a + headerBytes ∧ a < g.ptr.toNat

def block : Extent :=
  ⟨g.ptr - BitVec.ofNat 32 headerBytes, (sizeToOrder (g.size + BitVec.ofNat 32 headerBytes)).getD 0⟩

/-- The header in front of the memory says that it is from the buddy allocator, and the order. -/
def Marked (m : Buddy) : Prop :=
  m.next (g.ptr - 8) = allocTypeBuddy ∧ m.next (g.ptr - 4) = BitVec.ofNat 32 g.block.order

end

theorem Marked.write {g : Grant} {m : Buddy} {p v : Word} (h : g.Marked m) (h₁ : g.ptr - 8 ≠ p)
    (h₂ : g.ptr - 4 ≠ p) : g.Marked { m with next := update m.next p v } :=
  ⟨(update_of_ne h₁ _ _).trans h.1, (update_of_ne h₂ _ _).trans h.2⟩

end Grant

def cacheOf (size : Word) : Option CacheId :=
  if size ≤ 32 then some .b32 else if size ≤ 64 then some .b64
  else if size ≤ 128 then some .b128 else none

def Slab.page (s : Slab) : Extent := ⟨s.firstSlot, 0⟩

theorem Slab.Ready.page_holds {s : Slab} {i d : ℕ} (h : s.Ready) (hi : i < 32)
    (hd : d < s.size.toNat) : s.page.Holds (s.slot i + d) := by
  have hle := h.slot_le hi
  unfold Extent.Holds Slab.page Extent.bytes
  unfold Slab.slot at hle ⊢
  dsimp only
  omega

def Kheap.pages (h : Kheap) : List Extent := slabCaches.map fun c => (h.caches c).page

structure HeapUse where
  heap : Kheap
  granted : List Grant := []

inductive KheapCall
  | malloc (size : Word)
  | free (g : Grant)
  | store (p value : Word)

namespace HeapUse

/-- A call that does not return gives no memory, and takes none back. -/
def step (s : HeapUse) : KheapCall → HeapUse
  | .malloc size =>
    match kmallocRaw s.heap size with
    | none => s
    | some (p, h) => ⟨h, if p = 0 then s.granted else ⟨p, size⟩ :: s.granted⟩
  | .free g =>
    match kfreeRaw s.heap g.ptr with
    | none => s
    | some h => ⟨h, s.granted.erase g⟩
  | .store p value =>
    { s with heap := { s.heap with buddy := { s.heap.buddy with
      next := update s.heap.buddy.next p value } } }

/-- Memory is given back by who has it, and the words written to are words of such memory. -/
def Legal (s : HeapUse) : KheapCall → Prop
  | .malloc _ => True
  | .free g => g ∈ s.granted
  | .store p _ => 4 ∣ p.toNat ∧ ∃ g ∈ s.granted, g.Holds p.toNat

/-- What is handed out is memory of the heap, and of nothing else. -/
structure Sound (s : HeapUse) (start stop : Word) : Prop where
  inside : ∀ g ∈ s.granted, start.toNat ≤ g.ptr.toNat ∧ g.ptr.toNat + g.size.toNat ≤ stop.toNat
  apart : s.granted.Pairwise fun g g' => ∀ a, g.Holds a → ¬ g'.Holds a
  headers : ∀ g ∈ s.granted, ∀ g' ∈ s.granted, ∀ a, g.Holds a → ¬ g'.Header a
  pages : ∀ g ∈ s.granted, ∀ c, cacheOf g.size ≠ some c →
    ∀ a, g.Holds a → ¬ (s.heap.caches c).page.Holds a
  free : ∀ g ∈ s.granted, ∀ x ∈ s.heap.buddy.freeBlocks, ∀ a, g.Holds a → ¬ x.Holds a

/-- The buddy allocator is `u`, of which `early` was taken before the caches got their pages. -/
structure Served (s : HeapUse) (start stop : Word) (early : List Extent) (u : Usage) : Prop where
  start_eq : s.heap.buddy.start = start
  stop_eq : s.heap.buddy.stop = stop
  heap : u.heap = s.heap.buddy
  stands : ∃ roots f bs, u.Stands roots f bs
  held : u.held.Perm (s.heap.pages ++ early ++ (s.granted.filter Grant.large).map Grant.block)
  ready : ∀ c, (s.heap.caches c).Ready ∧ (s.heap.caches c).size.toNat = c.bytes
  taken : ∀ c i, i < 32 → ((s.heap.caches c).Taken i ↔
    ∃ g ∈ s.granted, cacheOf g.size = some c ∧ g.ptr.toNat = (s.heap.caches c).slot i)
  slot : ∀ g ∈ s.granted, ∀ c, cacheOf g.size = some c →
    ∃ i < 32, g.ptr.toNat = (s.heap.caches c).slot i
  distinct : s.granted.Pairwise fun g g' => g.ptr ≠ g'.ptr
  header : ∀ g ∈ s.granted, g.large = true → g.Marked s.heap.buddy
  room : ∀ g ∈ s.granted, g.large = true → g.size.toNat + headerBytes ≤ g.block.bytes

variable {s : HeapUse} {start stop : Word} {early : List Extent} {u : Usage} {g g' : Grant}
  {c c' : CacheId} {k : Slab} {a : ℕ} {size : Word}

theorem mem_pages (s : HeapUse) (c : CacheId) : (s.heap.caches c).page ∈ s.heap.pages :=
  mem_map_of_mem (by cases c <;> decide)

theorem mem_blocks (hg : g ∈ s.granted) (hl : g.large = true) :
    g.block ∈ (s.granted.filter Grant.large).map Grant.block :=
  mem_map_of_mem (mem_filter.mpr ⟨hg, hl⟩)

theorem large_iff : g.large = true ↔ cacheOf g.size = none := by
  have h32 : g.size ≤ 32 ↔ g.size.toNat ≤ 32 := le_def
  have h64 : g.size ≤ 64 ↔ g.size.toNat ≤ 64 := le_def
  have h128 : g.size ≤ 128 ↔ g.size.toNat ≤ 128 := le_def
  unfold Grant.large cacheOf
  simp only [decide_eq_true_eq, h32, h64, h128]
  split_ifs <;> simp only [iff_false, iff_true] <;> omega

theorem not_large (hc : cacheOf g.size = some c) : ¬ g.large = true :=
  fun hl => nomatch hc.symm.trans (large_iff.mp hl)

theorem size_le_of_cacheOf (h : cacheOf size = some c) : size.toNat ≤ c.bytes := by
  unfold cacheOf at h
  split_ifs at h <;> cases h <;> assumption

def home (s : HeapUse) (g : Grant) : Extent :=
  match cacheOf g.size with
  | some c => (s.heap.caches c).page
  | none => g.block

theorem home_small (hc : cacheOf g.size = some c) : s.home g = (s.heap.caches c).page := by
  rw [home, hc]

theorem home_large (hl : g.large = true) : s.home g = g.block := by
  rw [home, large_iff.mp hl]

theorem home_rec {P : Extent → Prop} (hsmall : ∀ c, cacheOf g.size = some c →
    P (s.heap.caches c).page) (hlarge : g.large = true → P g.block) : P (s.home g) := by
  cases hc : cacheOf g.size with
  | some c => exact home_small hc ▸ hsmall c hc
  | none => exact home_large (large_iff.mpr hc) ▸ hlarge (large_iff.mpr hc)

theorem mem_home (hg : g ∈ s.granted) :
    s.home g ∈ s.heap.pages ++ early ++ (s.granted.filter Grant.large).map Grant.block := by
  apply home_rec
  · exact fun c _ => mem_append_left _ (mem_append_left _ (s.mem_pages c))
  · exact fun hl => mem_append_right _ (mem_blocks hg hl)

theorem kmallocRaw_small (h : Kheap) (hc : cacheOf size = some c) :
    kmallocRaw h size = some (h.allocFrom c) := by
  unfold cacheOf at hc
  unfold kmallocRaw
  split_ifs at hc ⊢ <;> cases hc <;> rfl

theorem kmallocRaw_large (h : Kheap) (hc : cacheOf size = none) :
    kmallocRaw h size = h.allocBlock size := by
  unfold cacheOf at hc
  unfold kmallocRaw
  split_ifs at hc ⊢
  rfl

theorem pages_congr {k k' : Kheap} (h : ∀ c, (k.caches c).Same (k'.caches c)) :
    k'.pages = k.pages := by
  unfold Kheap.pages Slab.page
  simp only [(h _).firstSlot]

theorem same_update (h : (s.heap.caches c).Same k) (c' : CacheId) :
    (s.heap.caches c').Same (update s.heap.caches c k c') := by
  by_cases hc : c' = c
  · subst hc
    rwa [update_self]
  · rw [update_of_ne hc]
    exact ⟨rfl, rfl⟩

/-- A request leaves room for the header below 2³². -/
def Fits : KheapCall → Prop
  | .malloc size => size.toNat + headerBytes < 2 ^ 32
  | .free _ => True
  | .store _ _ => True

section

variable (h : s.Served start stop early u)

include h

theorem Served.disjoint : (s.heap.buddy.freeBlocks ++ (s.heap.pages ++ early ++
      (s.granted.filter Grant.large).map Grant.block)).Pairwise Extent.Apart := by
  obtain ⟨roots, f, bs, hst⟩ := h.stands
  have hd := hst.disjoint
  rw [h.heap] at hd
  exact ((h.held.append_left _).pairwise_iff fun hxy => symm hxy).mp hd

theorem Served.inside {x : Extent}
    (hx : x ∈ s.heap.pages ++ early ++ (s.granted.filter Grant.large).map Grant.block) :
    start.toNat ≤ x.address.toNat ∧ x.address.toNat + x.bytes ≤ stop.toNat ∧
      stop.toNat ≤ 2 ^ 31 ∧ 0 < x.address.toNat := by
  obtain ⟨roots, f, bs, hst⟩ := h.stands
  have := hst.inside (mem_append_right _ (h.held.mem_iff.mpr hx))
  rwa [h.heap, h.start_eq, h.stop_eq] at this

theorem Served.pages_apart (hne : c ≠ c') :
    (s.heap.caches c).page.Apart (s.heap.caches c').page := by
  have hp := (pairwise_append.mp (pairwise_append.mp (pairwise_append.mp h.disjoint).2.1).1).1
  exact (pairwise_map.mp hp).forall (by cases c <;> decide) (by cases c' <;> decide) hne

section

variable (hg : g ∈ s.granted)

include hg

namespace Served

theorem holds_page (hc : cacheOf g.size = some c) (ha : g.Holds a) :
    (s.heap.caches c).page.Holds a := by
  obtain ⟨i, hi, hptr⟩ := h.slot g hg c hc
  obtain ⟨hready, hsize⟩ := h.ready c
  have hfit := size_le_of_cacheOf hc
  obtain ⟨hle, hlt⟩ := ha
  have hpage := hready.page_holds hi (d := a - g.ptr.toNat) (by omega)
  rwa [← hptr, Nat.add_sub_cancel' hle] at hpage

theorem ptr_eq (hl : g.large = true) :
    g.ptr.toNat = g.block.address.toNat + headerBytes := by
  obtain ⟨-, hle, hstop, -⟩ := h.inside (mem_append_right _ (mem_blocks hg hl))
  have heq : g.ptr = g.block.address + BitVec.ofNat 32 headerBytes :=
    (sub_add_cancel _ _).symm
  rw [heq, toNat_add, toNat_ofNat]
  unfold headerBytes
  omega

theorem holds_block (hl : g.large = true) (ha : g.Holds a) : g.block.Holds a := by
  have hptr := h.ptr_eq hg hl
  have hroom := h.room g hg hl
  unfold Grant.Holds at ha
  unfold Extent.Holds
  omega

theorem header_block (ha : g.Header a) : g.block.Holds a ∧ ¬ g.Holds a := by
  obtain ⟨hl, hle, hlt⟩ := ha
  have hptr := h.ptr_eq hg hl
  have hb := g.block.bytes_pos
  unfold Extent.Holds Grant.Holds
  unfold headerBytes at *
  omega

theorem holds_home (ha : g.Holds a) : (s.home g).Holds a := by
  refine home_rec (P := (Extent.Holds · a)) ?_ ?_
  · exact fun c hc => h.holds_page hg hc ha
  · exact fun hl => h.holds_block hg hl ha

theorem blocks_apart (hg' : g' ∈ s.granted) (hl : g.large = true) (hl' : g'.large = true)
    (hne : g ≠ g') : g.block.Apart g'.block := by
  have hp := (pairwise_append.mp (pairwise_append.mp h.disjoint).2.1).2.1
  exact (pairwise_map.mp hp).forall (mem_filter.mpr ⟨hg, hl⟩) (mem_filter.mpr ⟨hg', hl'⟩) hne

theorem page_apart_block (hl : g.large = true) (c : CacheId) :
    (s.heap.caches c).page.Apart g.block :=
  (pairwise_append.mp (pairwise_append.mp h.disjoint).2.1).2.2 _
    (mem_append_left _ (s.mem_pages c)) _ (mem_blocks hg hl)

theorem home_apart_page (hc : cacheOf g.size ≠ some c) :
    (s.home g).Apart (s.heap.caches c).page := by
  refine home_rec (P := (Extent.Apart · _)) ?_ ?_
  · exact fun c' hg' => h.pages_apart fun heq => hc (heq ▸ hg')
  · exact fun hl => symm (h.page_apart_block hg hl c)

theorem home_apart_block (hg' : g' ∈ s.granted) (hl : g'.large = true) (hne : g ≠ g') :
    (s.home g).Apart g'.block := by
  refine home_rec (P := (Extent.Apart · _)) ?_ ?_
  · exact fun c _ => h.page_apart_block hg' hl c
  · exact fun hl' => h.blocks_apart hg hg' hl' hl hne

theorem slots_apart (hg' : g' ∈ s.granted) (hc : cacheOf g.size = some c)
    (hc' : cacheOf g'.size = some c) (hne : g.ptr ≠ g'.ptr) (ha : g.Holds a) : ¬ g'.Holds a := by
  intro ha'
  obtain ⟨i, hi, hptr⟩ := h.slot g hg c hc
  obtain ⟨j, hj, hptr'⟩ := h.slot g' hg' c hc'
  have hsize := (h.ready c).2
  have hfit := size_le_of_cacheOf hc
  have hfit' := size_le_of_cacheOf hc'
  have hij : i ≠ j := fun heq => hne (eq_of_toNat_eq (by rw [hptr, hptr', heq]))
  unfold Grant.Holds at ha ha'
  unfold Slab.slot at hptr hptr'
  rw [hsize] at hptr hptr'
  obtain hlt | hlt := Nat.lt_or_gt_of_ne hij
  all_goals
    have := Nat.mul_le_mul_right c.bytes (Nat.succ_le_of_lt hlt)
    rw [Nat.succ_mul] at this
    omega

theorem apart (hg' : g' ∈ s.granted) (hne : g.ptr ≠ g'.ptr) (ha : g.Holds a) :
    ¬ g'.Holds a := by
  intro ha'
  cases hc : cacheOf g'.size with
  | none =>
    have hl := large_iff.mpr hc
    exact h.home_apart_block hg hg' hl (fun heq => hne (congrArg Grant.ptr heq)) a
      (h.holds_home hg ha) (h.holds_block hg' hl ha')
  | some c =>
    by_cases hsame : cacheOf g.size = some c
    · exact h.slots_apart hg hg' hsame hc hne ha ha'
    · exact h.home_apart_page hg hsame a (h.holds_home hg ha) (h.holds_page hg' hc ha')

theorem inside_region :
    start.toNat ≤ g.ptr.toNat ∧ g.ptr.toNat + g.size.toNat ≤ stop.toNat := by
  obtain ⟨hstart, hstop, -, -⟩ := h.inside (mem_home hg)
  cases hc : cacheOf g.size with
  | none =>
    have hl := large_iff.mpr hc
    rw [home_large hl] at hstart hstop
    have hptr := h.ptr_eq hg hl
    have hroom := h.room g hg hl
    omega
  | some c =>
    rw [home_small hc] at hstart hstop
    obtain ⟨i, hi, hptr⟩ := h.slot g hg c hc
    obtain ⟨hready, hsize⟩ := h.ready c
    have hle := hready.slot_le hi
    have hfit := size_le_of_cacheOf hc
    unfold Slab.page at hstart hstop
    unfold Extent.bytes at hstop
    unfold Slab.slot at hptr hle
    dsimp only at hstart hstop
    omega

end Served

end

namespace Served

theorem sound : s.Sound start stop where
  inside _ hg := h.inside_region hg
  apart := h.distinct.imp_of_mem fun hg hg' hne _ ha => h.apart hg hg' hne ha
  headers g hg g' hg' a ha hhead := by
    obtain ⟨hblock, hnot⟩ := h.header_block hg' hhead
    by_cases heq : g = g'
    · exact hnot (heq ▸ ha)
    · exact h.home_apart_block hg hg' hhead.1 heq a (h.holds_home hg ha) hblock
  pages g hg c hc a ha := h.home_apart_page hg hc a (h.holds_home hg ha)
  free g hg x hx a ha hfree :=
    (pairwise_append.mp h.disjoint).2.2 x hx _ (mem_home hg) a hfree (h.holds_home hg ha)

theorem nodup : s.granted.Nodup :=
  h.distinct.imp fun hne heq => hne (congrArg Grant.ptr heq)

theorem eq_of_ptr (hg : g ∈ s.granted) (hg' : g' ∈ s.granted) (he : g.ptr = g'.ptr) :
    g = g' := by
  have : Std.Symm fun g g' : Grant => g.ptr ≠ g'.ptr := ⟨fun _ _ hne => hne.symm⟩
  by_contra hne
  exact h.distinct.forall hg hg' hne he

theorem recache {gs : List Grant} (hk : (s.heap.caches c).Same k)
    (hother : ∀ g, cacheOf g.size ≠ some c → (g ∈ gs ↔ g ∈ s.granted))
    (hlarge : (gs.filter Grant.large).Perm (s.granted.filter Grant.large))
    (htaken : ∀ i < 32, (k.Taken i ↔ ∃ g ∈ gs, cacheOf g.size = some c ∧ g.ptr.toNat =
      (s.heap.caches c).slot i))
    (hslot : ∀ g ∈ gs, cacheOf g.size = some c → ∃ i < 32, g.ptr.toNat = (s.heap.caches c).slot i)
    (hdistinct : gs.Pairwise fun g g' => g.ptr ≠ g'.ptr) :
    Served ⟨⟨s.heap.buddy, update s.heap.caches c k⟩, gs⟩ start stop early u := by
  have hsame := same_update hk
  have hmem : ∀ g ∈ gs, cacheOf g.size ≠ some c → g ∈ s.granted :=
    fun g hg hc => (hother g hc).mp hg
  have hold : ∀ g ∈ gs, g.large = true → g ∈ s.granted :=
    fun g hg hl => hmem g hg (large_iff.mp hl ▸ nofun)
  refine ⟨h.start_eq, h.stop_eq, h.heap, h.stands, ?_, fun c' => ?_, fun c' i hi => ?_,
    fun g hg c' hc' => ?_, hdistinct, fun g hg hl => h.header g (hold g hg hl) hl,
    fun g hg hl => h.room g (hold g hg hl) hl⟩
  · rw [pages_congr (k := s.heap) hsame]
    exact h.held.trans ((hlarge.symm.map _).append_left _)
  · obtain ⟨hready, hbytes⟩ := h.ready c'
    exact ⟨(hsame c').ready hready, (hsame c').size ▸ hbytes⟩
  · dsimp only
    rw [(hsame c').slot_eq]
    by_cases hc : c' = c
    · subst hc
      rw [update_self]
      exact htaken i hi
    · rw [update_of_ne hc, h.taken c' i hi]
      have hne : some c' ≠ some c := fun heq => hc (some.inj heq)
      exact exists_congr fun g => and_congr_left fun hg => (hother g (hg.1 ▸ hne)).symm
  · have hslots : ∀ i, (update s.heap.caches c k c').slot i = (s.heap.caches c').slot i :=
      (hsame c').slot_eq
    simp only [hslots]
    by_cases hc : c' = c
    · subst hc
      exact hslot g hg hc'
    · exact h.slot g (hmem g hg fun heq => hc (some.inj (hc'.symm.trans heq))) c' hc'

theorem ptr_home (hg : g ∈ s.granted) : (s.home g).Holds g.ptr.toNat := by
  refine home_rec (P := (Extent.Holds · _)) ?_ ?_
  · intro c hc
    obtain ⟨i, hi, hptr⟩ := h.slot g hg c hc
    obtain ⟨hready, -⟩ := h.ready c
    rw [hptr]
    exact hready.page_holds hi hready.pos
  · intro hl
    have hptr := h.ptr_eq hg hl
    have hb := g.block.bytes_pos
    unfold Extent.Holds
    unfold headerBytes at hptr
    omega

theorem mallocSmall (hc : cacheOf size = some c) :
    (s.step (.malloc size)).Served start stop early u := by
  obtain ⟨hready, -⟩ := h.ready c
  rw [step, kmallocRaw_small s.heap hc]
  unfold Kheap.allocFrom
  dsimp only
  obtain ⟨heq, -⟩ | ⟨i, hi, hfree, hptr, hsame, htaken⟩ := Slab.slabAlloc_cases hready
  · rw [heq, update_eq_self]
    exact h
  have hne : (slabAlloc (s.heap.caches c)).1 ≠ 0 := by
    intro h0
    have hpage := hready.page
    rw [h0] at hptr
    unfold Slab.slot at hptr
    change 0 = _ at hptr
    omega
  rw [if_neg hne]
  generalize hg : (⟨(slabAlloc (s.heap.caches c)).1, size⟩ : Grant) = g
  have hgc : cacheOf g.size = some c := by rw [← hg, hc]
  have hgptr : g.ptr.toNat = (s.heap.caches c).slot i := by rw [← hg, hptr]
  refine h.recache hsame (fun g' hc' => ?_) ?_ (fun j hj => ?_) (fun g' hg' hc' => ?_) ?_
  · refine (mem_cons.trans (or_iff_right ?_))
    exact fun heq => hc' (heq ▸ hgc)
  · rw [filter_cons_of_neg (not_large hgc)]
  · rw [htaken, h.taken c j hj]
    simp only [mem_cons, exists_eq_or_imp, hgc, hgptr, true_and]
    exact or_congr_left ⟨fun hji => hji ▸ rfl, fun he => (hready.slot_inj he).symm⟩
  · rcases mem_cons.mp hg' with rfl | hg'
    · exact ⟨i, hi, hgptr⟩
    · exact h.slot g' hg' c hc'
  · refine pairwise_cons.mpr ⟨fun g' hg' heq => ?_, h.distinct⟩
    rw [heq] at hgptr
    by_cases hc' : cacheOf g'.size = some c
    · exact hfree ((h.taken c i hi).mpr ⟨g', hg', hc', hgptr⟩)
    · refine h.home_apart_page hg' hc' _ (h.ptr_home hg') ?_
      rw [hgptr]
      exact hready.page_holds hi hready.pos

theorem mem_erase : g' ∈ s.granted.erase g ↔ g' ≠ g ∧ g' ∈ s.granted :=
  h.nodup.mem_erase_iff

theorem distinct_erase (g : Grant) :
    (s.granted.erase g).Pairwise fun g g' => g.ptr ≠ g'.ptr :=
  h.distinct.sublist erase_sublist

theorem rebuddy {u' : Usage} (gs : List Grant) (hst : ∃ roots f bs, u'.Stands roots f bs)
    (hstart : u'.heap.start = u.heap.start) (hstop : u'.heap.stop = u.heap.stop)
    (hheld : u'.held.Perm (s.heap.pages ++ early ++ (gs.filter Grant.large).map Grant.block))
    (hother : ∀ g c, cacheOf g.size = some c → (g ∈ gs ↔ g ∈ s.granted))
    (hdistinct : gs.Pairwise fun g g' => g.ptr ≠ g'.ptr)
    (hlarge : ∀ g ∈ gs, g.large = true → g.Marked u'.heap ∧ g.size.toNat + headerBytes ≤
      g.block.bytes) : Served ⟨⟨u'.heap, s.heap.caches⟩, gs⟩ start stop early u' := by
  refine ⟨?_, ?_, rfl, hst, hheld, h.ready, fun c i hi => ?_, fun g hg c hc => ?_, hdistinct,
    fun g hg hl => (hlarge g hg hl).1, fun g hg hl => (hlarge g hg hl).2⟩
  · exact hstart.trans (h.heap ▸ h.start_eq)
  · exact hstop.trans (h.heap ▸ h.stop_eq)
  · rw [h.taken c i hi]
    exact exists_congr fun g => and_congr_left fun hg => (hother g c hg.1).symm
  · exact h.slot g ((hother g c hc).mp hg) c hc

end Served

section

variable (hg : g ∈ s.granted)

include hg

theorem Served.find_small (hc : cacheOf g.size = some c) :
    (slabCaches.find? fun c => (s.heap.caches c).owns g.ptr) = some c := by
  have hhome := h.ptr_home hg
  rw [home_small hc] at hhome
  have howns : ∀ c', (s.heap.caches c').owns g.ptr = true ↔ c' = c := by
    intro c'
    rw [Slab.owns_iff (h.ready c').1]
    constructor
    · intro hin
      by_contra hne
      exact h.pages_apart (Ne.symm hne) _ hhome hin
    · rintro rfl
      exact hhome
  cases hf : slabCaches.find? fun c => (s.heap.caches c).owns g.ptr with
  | some c' =>
    have hfound := find?_some hf
    exact congrArg some ((howns c').mp hfound)
  | none =>
    have := find?_eq_none.mp hf c (by cases c <;> decide)
    exact absurd ((howns c).mpr rfl) this

theorem Served.find_large (hl : g.large = true) :
    (slabCaches.find? fun c => (s.heap.caches c).owns g.ptr) = none := by
  have hhome := h.ptr_home hg
  rw [home_large hl] at hhome
  refine find?_eq_none.mpr fun c _ howns => ?_
  exact h.page_apart_block hg hl c _ ((Slab.owns_iff (h.ready c).1).mp howns) hhome

theorem Served.ptr_ne_zero : g.ptr ≠ 0 := by
  intro h0
  have hhome := (h.ptr_home hg).1
  have hpos := (h.inside (mem_home hg)).2.2.2
  rw [h0] at hhome
  change _ ≤ 0 at hhome
  omega

theorem Served.freeSmall (hc : cacheOf g.size = some c) :
    (s.step (.free g)).Served start stop early u := by
  obtain ⟨hready, -⟩ := h.ready c
  obtain ⟨i, hi, hptr⟩ := h.slot g hg c hc
  obtain ⟨hsame, htaken⟩ := Slab.slabFree_slot hready hi hptr
  rw [step, kfreeRaw, if_neg (h.ptr_ne_zero hg), h.find_small hg hc]
  refine h.recache hsame (fun g' hc' => ?_) ?_ (fun j hj => ?_) (fun g' hg' hc' => ?_)
    (h.distinct_erase g)
  · rw [h.mem_erase]
    exact and_iff_right fun heq => hc' (heq ▸ hc)
  · have hperm := (perm_cons_erase hg).filter Grant.large
    rw [filter_cons_of_neg (not_large hc)] at hperm
    exact hperm.symm
  · rw [htaken, h.taken c j hj]
    constructor
    · rintro ⟨hji, g', hg', hc', hptr'⟩
      refine ⟨g', h.mem_erase.mpr ⟨fun heq => hji ?_, hg'⟩, hc', hptr'⟩
      exact hready.slot_inj (hptr'.symm.trans ((congrArg (·.ptr.toNat) heq).trans hptr))
    · rintro ⟨g', hg', hc', hptr'⟩
      obtain ⟨hne, hg'⟩ := h.mem_erase.mp hg'
      refine ⟨fun hji => hne ?_, g', hg', hc', hptr'⟩
      exact h.eq_of_ptr hg' hg (eq_of_toNat_eq (by rw [hptr', hptr, hji]))
  · exact h.slot g' (h.mem_erase.mp hg').2 c hc'

variable (hl : g.large = true)

include hl

theorem Served.header_words : 4096 ∣ g.block.address.toNat ∧
      (g.ptr - 8).toNat = g.block.address.toNat + 4 ∧
      (g.ptr - 4).toNat = g.block.address.toNat + 8 := by
  have hptr := h.ptr_eq hg hl
  obtain ⟨roots, f, bs, hst⟩ := h.stands
  have hheld := h.held.mem_iff.mpr (mem_append_right _ (mem_blocks hg hl))
  have halign := hst.aligned (mem_append_right _ hheld)
  unfold headerBytes at hptr
  refine ⟨(Nat.dvd_mul_right 4096 _).trans halign, ?_, ?_⟩
  · change (2 ^ 32 - 8 + g.ptr.toNat) % 2 ^ 32 = _
    omega
  · change (2 ^ 32 - 4 + g.ptr.toNat) % 2 ^ 32 = _
    omega

theorem Served.marked {m : Buddy} (hk : Memory.Kept u.heap m) : g.Marked m := by
  obtain ⟨hpage, h₁, h₂⟩ := h.header_words hg hl
  obtain ⟨htype, horder⟩ := h.header g hg hl
  rw [← h.heap] at htype horder
  exact ⟨(hk.words _ (by omega)).trans htype, (hk.words _ (by omega)).trans horder⟩

theorem Served.freeLarge : ∃ u', (s.step (.free g)).Served start stop early u' := by
  obtain ⟨roots, f, bs, hst⟩ := h.stands
  have hheld := h.held.mem_iff.mpr (mem_append_right _ (mem_blocks hg hl))
  obtain ⟨htype, horder⟩ := h.header g hg hl
  obtain ⟨-, hle, hstop, -⟩ := h.inside (mem_append_right _ (mem_blocks hg hl))
  have htoInt : (BitVec.ofNat 32 g.block.order).toInt = g.block.order := by
    have hlt : g.block.order < 2 ^ g.block.order := Nat.lt_two_pow_self
    unfold Extent.bytes at hle
    have hnat : (BitVec.ofNat 32 g.block.order).toNat = g.block.order :=
      toNat_ofNat .. |>.trans (Nat.mod_eq_of_lt (by omega))
    rw [toInt_eq_toNat_of_lt (by omega), hnat]
  have hcall : kfreeRaw s.heap g.ptr =
      (buddyFree u.heap g.block.address g.block.order).map fun m => { s.heap with buddy := m } := by
    have h4 : g.ptr - BitVec.ofNat 32 headerBytes + 4 = g.ptr - 8 := by
      unfold headerBytes
      bv_omega
    have h8 : g.ptr - BitVec.ofNat 32 headerBytes + 8 = g.ptr - 4 := by
      bv_omega
    rw [kfreeRaw, if_neg (h.ptr_ne_zero hg), h.find_large hg hl]
    dsimp only
    rw [h4, h8, if_pos htype, horder, htoInt, h.heap]
    rfl
  obtain ⟨f', bs', hst', hk⟩ := hst.free hheld
  rw [step, hcall]
  rw [Usage.step] at hst' hk
  cases hm : buddyFree u.heap g.block.address g.block.order with
  | none => exact ⟨u, h⟩
  | some m =>
    rw [hm] at hst' hk
    refine ⟨_, h.rebuddy _ ⟨roots, f', bs', hst'⟩ hk.start hk.stop ?_ (fun g' c hc => ?_)
      (h.distinct_erase g) fun g' hg' hl' => ?_⟩
    · have hgs := ((perm_cons_erase hg).filter Grant.large).map Grant.block
      rw [filter_cons_of_pos hl] at hgs
      apply Perm.cons_inv (a := g.block)
      refine (perm_cons_erase hheld).symm.trans (h.held.trans ?_)
      exact (hgs.append_left _).trans perm_middle
    · rw [h.mem_erase]
      exact and_iff_right fun heq => not_large hc (heq ▸ hl)
    · have hg' := (h.mem_erase.mp hg').2
      exact ⟨h.marked hg' hl' hk, h.room g' hg' hl'⟩

end

theorem Served.grant {u₁ : Usage} {roots bs : List Dyadic.Block} {f : Arena.Free} {x : Extent}
    (hst : u₁.Stands roots f bs) (hk : Memory.Kept u.heap u₁.heap) (hheld : u₁.held = x :: u.held)
    (hx : g.block = x) (hl : g.large = true) (hroom : g.size.toNat + headerBytes ≤ x.bytes) :
    ∃ u', Served ⟨⟨u₁.heap.writeHeader x.address x.order, s.heap.caches⟩, g :: s.granted⟩
      start stop early u' := by
  have hmem : x ∈ u₁.held := hheld ▸ mem_cons_self
  obtain ⟨-, hle, hstop, -⟩ := hst.inside (mem_append_right _ hmem)
  have hbytes := x.bytes_pos
  have hnat : ∀ d < 4096, (x.address + BitVec.ofNat 32 d).toNat = x.address.toNat + d := by
    intro d hd
    rw [toNat_add, toNat_ofNat, Nat.mod_eq_of_lt (a := d) (by omega), Nat.mod_eq_of_lt (by omega)]
  have hholds : ∀ d < 4096, x.Holds (x.address + BitVec.ofNat 32 d).toNat := by
    intro d hd
    rw [hnat d hd]
    exact ⟨by omega, by omega⟩
  have hptr : g.ptr = x.address + BitVec.ofNat 32 headerBytes := by
    rw [← hx]
    exact (sub_add_cancel _ _).symm
  have hapart : ∀ g' ∈ s.granted, x.Apart (s.home g') := by
    intro g' hg'
    have hd := hst.disjoint
    rw [hheld] at hd
    exact (pairwise_cons.mp (pairwise_append.mp hd).2.1).1 _ (h.held.mem_iff.mpr (mem_home hg'))
  have hst₁ := hst.write ⟨x, hmem, hholds 4 (by decide)⟩ allocTypeBuddy
  have hst₂ := hst₁.write ⟨x, hmem, hholds 8 (by decide)⟩ (BitVec.ofNat 32 x.order)
  refine ⟨_, h.rebuddy _ ⟨roots, f, bs, hst₂⟩ hk.start hk.stop ?_ (fun g' c hc => ?_)
    (pairwise_cons.mpr ⟨fun g' hg' heq => ?_, h.distinct⟩) fun g' hg' hl' => ?_⟩
  · rw [filter_cons_of_pos hl, map_cons, hx]
    show u₁.held.Perm _
    rw [hheld]
    exact (h.held.cons x).trans perm_middle.symm
  · exact mem_cons.trans (or_iff_right fun heq => not_large hc (heq ▸ hl))
  · refine hapart g' hg' _ (hholds headerBytes (by decide)) ?_
    rw [← hptr, heq]
    exact h.ptr_home hg'
  · rcases mem_cons.mp hg' with rfl | hg'
    · have h8 : g'.ptr - 8 = x.address + 4 := by
        rw [hptr]
        unfold headerBytes
        bv_omega
      have h4 : g'.ptr - 4 = x.address + 8 := by
        bv_omega
      refine ⟨⟨?_, ?_⟩, hx ▸ hroom⟩
      · rw [h8]
        refine (update_of_ne ?_ _ _).trans (update_self _ _ _)
        bv_omega
      · rw [h4, hx]
        exact update_self _ _ _
    · have hne : ∀ d < 4096, ∀ q : Word, g'.block.Holds q.toNat →
          q ≠ x.address + BitVec.ofNat 32 d :=
        fun d hd q hq heq => hapart g' hg' _ (hholds d hd) (heq ▸ home_large hl' ▸ hq)
      obtain ⟨-, h8, h4⟩ := h.header_words hg' hl'
      have hb := g'.block.bytes_pos
      have hq8 : g'.block.Holds (g'.ptr - 8).toNat := ⟨by omega, by omega⟩
      have hq4 : g'.block.Holds (g'.ptr - 4).toNat := ⟨by omega, by omega⟩
      have hmarked := h.marked hg' hl' hk
      exact ⟨(hmarked.write (hne 4 (by decide) _ hq8) (hne 4 (by decide) _ hq4)).write
        (hne 8 (by decide) _ hq8) (hne 8 (by decide) _ hq4), h.room g' hg' hl'⟩

theorem Served.mallocLarge (hc : cacheOf size = none) (hfit : size.toNat + headerBytes < 2 ^ 32) :
    ∃ u', (s.step (.malloc size)).Served start stop early u' := by
  obtain ⟨roots, f, bs, hst⟩ := h.stands
  rw [step, kmallocRaw_large s.heap hc]
  cases hcall : s.heap.allocBlock size with
  | none => exact ⟨u, h⟩
  | some r =>
    obtain ⟨p, k⟩ := r
    obtain ⟨o, hdr, m, ho, hm, hr⟩ := Kheap.allocBlock_cases hcall
    obtain ⟨f', bs', hst', hk⟩ := hst.alloc o
    rw [Usage.step, h.heap, hm] at hst'
    rw [Usage.step, h.heap, hm, ← h.heap] at hk
    dsimp only at hst' hk ⊢
    rcases hr with ⟨rfl, rfl, rfl⟩ | ⟨h0, rfl, rfl⟩
    · exact ⟨_, h.rebuddy _ ⟨roots, f', bs', hst'⟩ hk.start hk.stop h.held (fun _ _ _ => Iff.rfl)
        h.distinct fun g hg hl => ⟨h.marked hg hl hk, h.room g hg hl⟩⟩
    · rw [if_neg h0] at hst'
      have hne : hdr + BitVec.ofNat 32 headerBytes ≠ 0 := by
        obtain ⟨-, hle, hstop, -⟩ := hst'.inside (mem_append_right _ mem_cons_self)
        unfold headerBytes
        bv_omega
      have hblock : (⟨hdr + BitVec.ofNat 32 headerBytes, size⟩ : Grant).block = ⟨hdr, o⟩ := by
        rw [Grant.block, ho, add_sub_cancel]
        rfl
      have hroom := (sizeToOrder_eq_some_iff.mp ho).2.1
      rw [toNat_add, toNat_ofNat, Nat.mod_eq_of_lt (a := headerBytes) (by decide),
        Nat.mod_eq_of_lt hfit] at hroom
      rw [if_neg hne]
      exact h.grant hst' hk rfl hblock (large_iff.mpr hc) hroom

theorem Served.store (hg : g ∈ s.granted) {p : Word} (hp : g.Holds p.toNat) (value : Word) :
    ∃ u', (s.step (.store p value)).Served start stop early u' := by
  obtain ⟨roots, f, bs, hst⟩ := h.stands
  have hst' := hst.write ⟨_, h.held.mem_iff.mpr (mem_home hg), h.holds_home hg hp⟩ value
  have hheap : (s.step (.store p value)).heap.buddy = (u.step (.write p value)).heap := by
    rw [step, Usage.step, h.heap]
  have hserved := h.rebuddy s.granted ⟨roots, f, bs, hst'⟩ rfl rfl h.held
    (fun _ _ _ => Iff.rfl) h.distinct fun g' hg' hl => ⟨?_, h.room g' hg' hl⟩
  · rw [← hheap] at hserved
    exact ⟨_, hserved⟩
  · obtain ⟨-, h8, h4⟩ := h.header_words hg' hl
    have hptr := h.ptr_eq hg' hl
    unfold headerBytes at hptr
    have hne : ∀ q : Word, g'.Header q.toNat → q ≠ p :=
      fun q hq heq => h.sound.headers g hg g' hg' _ hp (heq ▸ hq)
    refine Grant.Marked.write (h.heap ▸ h.header g' hg' hl) (hne _ ?_) (hne _ ?_)
    · exact ⟨hl, by unfold headerBytes; omega, by omega⟩
    · exact ⟨hl, by unfold headerBytes; omega, by omega⟩

theorem Served.step {e : KheapCall} (he : s.Legal e) (hfit : Fits e) :
    ∃ u', (s.step e).Served start stop early u' := by
  cases e with
  | malloc size =>
    cases hc : cacheOf size with
    | some c => exact ⟨u, h.mallocSmall hc⟩
    | none => exact h.mallocLarge hc hfit
  | free g =>
    cases hc : cacheOf g.size with
    | some c => exact ⟨u, h.freeSmall he hc⟩
    | none => exact h.freeLarge he (large_iff.mpr hc)
  | store p value =>
    obtain ⟨-, g, hg, hp⟩ := he
    exact h.store hg hp value

end

theorem takePage {roots bs : List Dyadic.Block} {f : Arena.Free} {m : Buddy}
    (h : u.Stands roots f bs) (hk : slabInit u.heap size = some (k, m)) (h0 : k.firstSlot ≠ 0) :
    k.bitmap = 0 ∧ k.size = size ∧ ∃ u' f' bs', Usage.Stands u' roots f' bs' ∧ u'.heap = m ∧
      u'.held = k.page :: u.held ∧ m.start = u.heap.start ∧ m.stop = u.heap.stop := by
  obtain ⟨⟨p, m'⟩, hcall, heq⟩ := map_eq_some_iff.mp hk
  cases heq
  obtain ⟨f', bs', hst, hkept⟩ := h.alloc 0
  have hstep : u.step (.alloc 0) = { u with heap := m', held := ⟨p, 0⟩ :: u.held } := by
    rw [Usage.step, hcall]
    exact congrArg (fun l => ({ u with heap := m', held := l } : Usage)) (if_neg h0)
  rw [hstep] at hst hkept
  exact ⟨rfl, rfl, _, f', bs', hst, rfl, rfl, hkept.start, hkept.stop⟩

theorem served_slabInitAll {roots bs : List Dyadic.Block} {f : Arena.Free} {h : Kheap}
    (hst : u.Stands roots f bs) (hinit : slabInitAll u.heap = some h)
    (h0 : ∀ c, (h.caches c).firstSlot ≠ 0) :
    ∃ u', Served ⟨h, []⟩ u.heap.start u.heap.stop u.held u' := by
  obtain ⟨⟨k64, m⟩, hk64, hinit⟩ := bind_eq_some_iff.mp hinit
  obtain ⟨⟨k128, m'⟩, hk128, hinit⟩ := bind_eq_some_iff.mp hinit
  obtain ⟨⟨k32, m''⟩, hk32, hinit⟩ := bind_eq_some_iff.mp hinit
  cases hinit
  obtain ⟨b64, s64, u₁, f₁, bs₁, hst₁, rfl, hheld₁, hs₁, he₁⟩ := takePage hst hk64 (h0 .b64)
  obtain ⟨b128, s128, u₂, f₂, bs₂, hst₂, rfl, hheld₂, hs₂, he₂⟩ := takePage hst₁ hk128 (h0 .b128)
  obtain ⟨b32, s32, u₃, f₃, bs₃, hst₃, rfl, hheld₃, hs₃, he₃⟩ := takePage hst₂ hk32 (h0 .b32)
  have hheld : u₃.held.Perm ([k32.page, k64.page, k128.page] ++ u.held) := by
    rw [hheld₃, hheld₂, hheld₁]
    exact (Perm.swap _ _ _).cons _
  have hready : ∀ k : Slab, k.page ∈ u₃.held → 0 < k.size.toNat → k.size.toNat ≤ 128 → k.Ready := by
    intro k hk hpos hle
    obtain ⟨-, hend, hstop, hpage⟩ := hst₃.inside (mem_append_right _ hk)
    have hbytes := k.page.bytes_pos
    exact ⟨hpos, by unfold slabSlotsPerCache; omega, (Nat.add_le_add_left hbytes _).trans
      (hend.trans hstop), hpage⟩
  have hmem : ∀ k ∈ [k32, k64, k128], k.page ∈ u₃.held := by
    intro k hk
    refine hheld.mem_iff.mpr (mem_append_left _ ?_)
    exact mem_map_of_mem (f := Slab.page) hk
  refine ⟨u₃, hs₃.trans (hs₂.trans hs₁), he₃.trans (he₂.trans he₁), rfl, ⟨roots, f₃, bs₃, hst₃⟩,
    ?_, fun c => ?_, fun c i hi => ?_, nofun, .nil, nofun, nofun⟩
  · rw [filter_nil, map_nil, append_nil]
    exact hheld
  · cases c with
    | b32 => exact ⟨hready k32 (hmem _ (by simp)) (s32 ▸ by decide) (s32 ▸ by decide), s32 ▸ rfl⟩
    | b64 => exact ⟨hready k64 (hmem _ (by simp)) (s64 ▸ by decide) (s64 ▸ by decide), s64 ▸ rfl⟩
    | b128 =>
      exact ⟨hready k128 (hmem _ (by simp)) (s128 ▸ by decide) (s128 ▸ by decide), s128 ▸ rfl⟩
  · unfold Slab.Taken
    cases c with
    | b32 => simp [b32]
    | b64 => simp [b64]
    | b128 => simp [b128]

end HeapUse

/-- What is handed out lies in the region, apart from headers, other pages and free blocks. -/
theorem heap_regions_apart (next : Word → Word) (start stop : Word)
    (ha : start.toNat ≤ 2 ^ 31) (hz : stop.toNat ≤ 2 ^ 31) (boot : List HeapCall)
    (hboot : Along Usage.step Usage.Legal (.unused (buddyInit next start stop)) boot)
    (h : Kheap)
    (hinit : slabInitAll (run Usage.step (.unused (buddyInit next start stop)) boot).heap = some h)
    (h0 : ∀ c, (h.caches c).firstSlot ≠ 0) (calls : List KheapCall)
    (hl : Along HeapUse.step (fun s e => s.Legal e ∧ HeapUse.Fits e) ⟨h, []⟩ calls) :
    (run HeapUse.step ⟨h, []⟩ calls).Sound start stop := by
  obtain ⟨f, hfirst, -⟩ := Usage.stands_run next ha hz
  obtain ⟨⟨f', bs, hst⟩, hstart, hstop⟩ := hboot.run_invariant
    (I := fun u => (∃ f' bs, u.Stands (Arena.blocks maxOrder f) f' bs) ∧ u.heap.start = start ∧
      u.heap.stop = stop)
    (fun u e ⟨⟨f', bs, hst⟩, hs, he⟩ hlegal => ⟨hst.step hlegal, by
      rw [(hst.bounds_step hlegal).1, hs], by rw [(hst.bounds_step hlegal).2, he]⟩)
    ⟨⟨f, [], hfirst⟩, bounds_buddyInit next start stop⟩
  obtain ⟨early, u, hserved⟩ : ∃ early u, HeapUse.Served ⟨h, []⟩ start stop early u := by
    have hinit' := HeapUse.served_slabInitAll hst hinit h0
    rw [hstart, hstop] at hinit'
    exact ⟨_, hinit'⟩
  obtain ⟨u', hrun⟩ := hl.run_invariant (I := fun s => ∃ u, s.Served start stop early u)
    (fun s e ⟨u, hs⟩ he => hs.step he.1 he.2) ⟨u, hserved⟩
  exact hrun.sound

theorem two_requests_apart : ∃ h, slabInitAll (buddyInit (fun _ => 0) 4096 65536) = some h ∧
      (run HeapUse.step ⟨h, []⟩ [.malloc 20, .malloc 5000]).granted = [⟨49164, 5000⟩, ⟨40960, 20⟩] ∧
      (run HeapUse.step ⟨h, []⟩ [.malloc 20, .malloc 5000]).Sound 4096 65536 := by
  obtain ⟨h, hh⟩ : ∃ h, slabInitAll (buddyInit (fun _ => 0) 4096 65536) = some h :=
    isSome_iff_exists.mp (by decide +kernel)
  have hpages : (slabInitAll (buddyInit (fun _ => 0) 4096 65536)).map
      (fun h => slabCaches.all fun c => (h.caches c).firstSlot ≠ 0) = some true := by
    decide +kernel
  have hgranted : (slabInitAll (buddyInit (fun _ => 0) 4096 65536)).map
      (fun h => (run HeapUse.step ⟨h, []⟩ [.malloc 20, .malloc 5000]).granted) =
        some [⟨49164, 5000⟩, ⟨40960, 20⟩] := by
    decide +kernel
  rw [hh] at hpages hgranted
  have h0 : ∀ c, (h.caches c).firstSlot ≠ 0 := by
    intro c
    have := all_eq_true.mp (some.inj hpages) c (by cases c <;> decide)
    simpa using this
  have hsmall : (20 : Word).toNat + headerBytes < 2 ^ 32 := by decide
  have hlarge : (5000 : Word).toNat + headerBytes < 2 ^ 32 := by decide
  refine ⟨h, hh, some.inj hgranted, ?_⟩
  exact heap_regions_apart (fun _ => 0) 4096 65536 (by decide) (by decide) [] trivial h hh h0 _
    ⟨⟨trivial, hsmall⟩, ⟨trivial, hlarge⟩, trivial⟩

theorem huge_request_overlaps : ∃ h, slabInitAll (buddyInit (fun _ => 0) 4096 65536) = some h ∧
      (run HeapUse.step ⟨h, []⟩ [.malloc 0xFFFFFFF8]).granted = [⟨45068, 0xFFFFFFF8⟩] ∧
      ¬ (run HeapUse.step ⟨h, []⟩ [.malloc 0xFFFFFFF8]).Sound 4096 65536 := by
  obtain ⟨h, hh⟩ : ∃ h, slabInitAll (buddyInit (fun _ => 0) 4096 65536) = some h :=
    isSome_iff_exists.mp (by decide +kernel)
  have hgranted : (slabInitAll (buddyInit (fun _ => 0) 4096 65536)).map
      (fun h => (run HeapUse.step ⟨h, []⟩ [.malloc 0xFFFFFFF8]).granted) =
        some [⟨45068, 0xFFFFFFF8⟩] := by
    decide +kernel
  rw [hh] at hgranted
  have hgranted := some.inj hgranted
  refine ⟨h, hh, hgranted, fun hsound => ?_⟩
  have hin := (hsound.inside _ (hgranted ▸ mem_singleton_self _)).2
  exact absurd hin (by decide)

end Aevros
