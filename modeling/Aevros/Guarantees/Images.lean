import Aevros.Elf.Contents
import Aevros.Guarantees.Teardown

/-! # The image of a program

A page that two segments share holds nothing of the first one. So a program finds its bytes exactly
if every page was entered and those that are placed again were all 0.
-/

namespace Aevros

open List Machine

variable {m a b : Machine} {w : ℕ} {d v : Word} {win : Page} {file : ElfFile} {ph ph' : Phdr}
  {k : ℕ} {P : List Placement}

def ElfFile.segments (file : ElfFile) : List Phdr :=
  if file.readable then file.phdrs.filter fun ph => ph.type = ptLoad else []

/-- The segments lie in the user part, and no two of them have an address in common. -/
structure ElfFile.WellFormed (file : ElfFile) : Prop where
  user : ∀ ph ∈ file.segments, ph.InUser
  disjoint : file.segments.Pairwise fun ph ph' => ∀ x, ¬ (ph.Covers x ∧ ph'.Covers x)

def Phdr.addr (ph : Phdr) (k : ℕ) : Word := ph.virAddress + BitVec.ofNat 32 k

def ElfFile.image (file : ElfFile) (ph : Phdr) (k : ℕ) : Byte :=
  if k < ph.fileSize.toNat then file.bytes (file.hdr + ph.offset + BitVec.ofNat 32 k) else 0

def ShowsImage (m : Machine) (file : ElfFile) : Prop :=
  ∀ d s s', createUserSpace m = some (d, s) → elfLoadSegs file d s = some (true, s') →
    ∀ ph ∈ file.segments, ∀ k < ph.memSize.toNat,
      (s'.under (frame d)).loadByte (ph.addr k) = some (file.image ph k)

def RunsOut (m : Machine) (file : ElfFile) : Prop :=
  (landings m file).length < (imagePages file).length

def Entered (file : ElfFile) (P : List Placement) : Prop :=
  ∀ ph ∈ file.segments, ∀ k < ph.memSize.toNat,
    ∃ pl ∈ P, pl.At (pdIndex (ph.addr k)) (ptIndex (ph.addr k))

def NotOverlaid (file : ElfFile) : Prop :=
  file.segments.Pairwise fun ph ph' => ∀ k < ph.memSize.toNat,
    pageAlignDown (ph.addr k) ∈ ph'.pages → file.image ph k = 0

section Segment

variable (h : ph.InUser) (hk : k < ph.memSize.toNat)

include h hk

theorem Phdr.InUser.toNat_addr : (ph.addr k).toNat = ph.virAddress.toNat + k := by
  have := h.high
  rw [Phdr.addr, BitVec.toNat_add, BitVec.toNat_ofNat, Nat.mod_eq_of_lt (a := k) (by omega),
    Nat.mod_eq_of_lt (by omega)]

theorem Phdr.InUser.covers_addr : ph.Covers (ph.addr k).toNat := by
  rw [h.toNat_addr hk]
  exact ⟨Nat.le_add_right _ _, Nat.add_lt_add_left hk _⟩

theorem Phdr.InUser.byteAt_addr : file.byteAt ph (ph.addr k).toNat = file.image ph k := by
  rw [h.toNat_addr hk, ElfFile.byteAt, Nat.add_sub_cancel_left]
  exact if_congr (by omega) rfl rfl

theorem Phdr.InUser.pdIndex_addr : pdIndex (ph.addr k) ∈ userEntries := by
  have := h.low
  have := h.high
  have hrange : 10 ≤ (ph.addr k).toNat / 2 ^ 22 ∧ (ph.addr k).toNat / 2 ^ 22 < 768 := by
    rw [h.toNat_addr hk]
    omega
  exact mem_userEntries.mpr hrange

theorem Phdr.InUser.page_mem : pageAlignDown (ph.addr k) ∈ ph.pages := by
  rw [h.mem_pages, toNat_pageAlignDown, h.toNat_addr hk]
  omega

end Segment

theorem Phdr.InUser.pdIndex_page (h : ph.InUser) (hv : v ∈ ph.pages) : pdIndex v ≠ selfEntry := by
  have := h.high
  obtain ⟨-, -, hlt⟩ := h.mem_pages.mp hv
  intro heq
  have hval : v.toNat / 2 ^ 22 = 1023 := congrArg Fin.val heq
  omega

theorem index_eq_iff {u : Word} (hu : 4096 ∣ u.toNat) :
    pdIndex u = pdIndex v ∧ ptIndex u = ptIndex v ↔ u = pageAlignDown v := by
  have hdown := toNat_pageAlignDown v
  constructor
  · rintro ⟨hpd, hpt⟩
    have hpd' : u.toNat / 2 ^ 22 = v.toNat / 2 ^ 22 := congrArg Fin.val hpd
    have hpt' : u.toNat / 4096 % 1024 = v.toNat / 4096 % 1024 := congrArg Fin.val hpt
    refine BitVec.eq_of_toNat_eq ?_
    omega
  · rintro rfl
    refine ⟨Fin.ext ?_, Fin.ext ?_⟩
    · change (pageAlignDown v).toNat / 2 ^ 22 = v.toNat / 2 ^ 22
      omega
    · change (pageAlignDown v).toNat / 4096 % 1024 = v.toNat / 4096 % 1024
      omega

theorem imagePages_eq (file : ElfFile) : imagePages file = file.segments.flatMap file.pagesOf := by
  have hall : ∀ phs : List Phdr, loadablePages file phs =
      (phs.filter fun ph => ph.type = ptLoad).flatMap file.pagesOf := by
    intro phs
    induction phs with
    | nil => rfl
    | cons ph phs ih =>
      rw [loadablePages, flatMap_cons, ← loadablePages, ih]
      split_ifs with hload
      · rw [filter_cons_of_pos (by simp [hload])]
        rfl
      · rw [filter_cons_of_neg (by simp [hload]), nil_append]
  rw [imagePages, ElfFile.segments]
  cases file.readable with
  | true => exact hall _
  | false => rfl

def itemsAt (i j : Fin 1024) (items : List (Word × Page)) : List (Word × Page) :=
  items.filter fun e => pdIndex e.1 = i ∧ ptIndex e.1 = j

theorem itemsAt_append (i j : Fin 1024) (items items' : List (Word × Page)) :
    itemsAt i j (items ++ items') = itemsAt i j items ++ itemsAt i j items' :=
  filter_append ..

theorem lastOf_eq_getLast {i j : Fin 1024} (h : ∀ pl ∈ P, pdIndex pl.addr = i → pl.mapped = true) :
    (lastOf P i j).map (fun pl => (pl.addr, pl.page)) =
      (itemsAt i j (P.map fun pl => (pl.addr, pl.page))).getLast? := by
  have hfilter : P.filter (fun pl => decide (pl.At i j)) =
      P.filter ((fun e : Word × Page => decide (pdIndex e.1 = i ∧ ptIndex e.1 = j)) ∘
        fun pl => (pl.addr, pl.page)) :=
    filter_congr fun pl hpl => decide_eq_decide.mpr
      ⟨fun hat => hat.2, fun hat => ⟨h pl hpl hat.1, hat⟩⟩
  rw [lastOf, hfilter, itemsAt, filter_map, getLast?_map]

theorem Phdr.InUser.pageByte_item (h : ph.InUser) {e : Word × Page}
    (he : e ∈ itemsAt (pdIndex v) (ptIndex v) (file.pagesOf ph)) :
    pageByte e.2 (byteIndex v) = file.byteAt ph v.toNat ∧ pageAlignDown v ∈ ph.pages := by
  obtain ⟨hmem, hat⟩ := mem_filter.mp he
  have hpage := mem_pages_of_mem hmem
  have hdown : e.1 = pageAlignDown v :=
    (index_eq_iff (h.mem_pages.mp hpage).1).mp (of_decide_eq_true hat)
  have hsum : e.1.toNat + (byteIndex v).val = v.toNat := by
    rw [hdown, toNat_pageAlignDown]
    exact Nat.div_add_mod _ _
  exact ⟨by rw [h.pageByte_pagesOf hmem, hsum], hdown ▸ hpage⟩

theorem Phdr.InUser.itemsAt_ne_nil (h : ph.InUser) (file : ElfFile)
    (hv : pageAlignDown v ∈ ph.pages) :
    itemsAt (pdIndex v) (ptIndex v) (file.pagesOf ph) ≠ [] := by
  rw [← map_fst_pagesOf file ph] at hv
  obtain ⟨e, he, heq⟩ := mem_map.mp hv
  refine ne_nil_of_mem (a := e) (mem_filter.mpr ⟨he, decide_eq_true ?_⟩)
  exact (index_eq_iff (h.mem_pages.mp (mem_pages_of_mem he)).1).mpr heq

theorem pairwise_iff_split {α : Type*} {R : α → α → Prop} {l : List α} :
    l.Pairwise R ↔ ∀ as x bs, l = as ++ x :: bs → ∀ y ∈ bs, R x y := by
  constructor
  · rintro h as x bs rfl y hy
    exact (pairwise_cons.mp (pairwise_append.mp h).2.1).1 y hy
  · intro h
    induction l with
    | nil => exact .nil
    | cons x l ih =>
      refine .cons (h [] x l rfl) (ih fun as y bs heq => h (x :: as) y bs ?_)
      rw [heq, cons_append]

section Last

variable {as bs : List Phdr} (hfile : file.WellFormed) (hsplit : file.segments = as ++ ph :: bs)
  (hk : k < ph.memSize.toNat)

include hfile hsplit hk

theorem getLast_itemsAt : ∃ e,
    (itemsAt (pdIndex (ph.addr k)) (ptIndex (ph.addr k)) (imagePages file)).getLast? = some e ∧
      pageByte e.2 (byteIndex (ph.addr k)) =
        if ∃ ph' ∈ bs, pageAlignDown (ph.addr k) ∈ ph'.pages then 0 else file.image ph k := by
  have hph : ph.InUser := hfile.user ph (by rw [hsplit]; simp)
  have hbs : ∀ ph' ∈ bs, ph'.InUser := fun ph' h => hfile.user ph' (by rw [hsplit]; simp [h])
  rw [imagePages_eq, hsplit, flatMap_append, flatMap_cons, itemsAt_append,
    itemsAt_append, getLast?_append, getLast?_append]
  split_ifs with hlater
  · have hne : itemsAt (pdIndex (ph.addr k)) (ptIndex (ph.addr k)) (bs.flatMap file.pagesOf) ≠
        [] := by
      obtain ⟨ph', hph', hpage⟩ := hlater
      obtain ⟨e, he⟩ := exists_mem_of_ne_nil _ ((hbs ph' hph').itemsAt_ne_nil file hpage)
      obtain ⟨hmem, hat⟩ := mem_filter.mp he
      exact ne_nil_of_mem (mem_filter.mpr ⟨mem_flatMap.mpr ⟨ph', hph', hmem⟩, hat⟩)
    obtain ⟨e, he⟩ := Option.ne_none_iff_exists'.mp (mt getLast?_eq_none_iff.mp hne)
    refine ⟨e, by rw [he]; rfl, ?_⟩
    obtain ⟨hmem, hat⟩ := mem_filter.mp (mem_of_getLast? he)
    obtain ⟨ph', hph', hmem⟩ := mem_flatMap.mp hmem
    rw [((hbs ph' hph').pageByte_item (mem_filter.mpr ⟨hmem, hat⟩)).1]
    refine ElfFile.byteAt_of_not_covers (hbs ph' hph') fun hcovers => ?_
    exact pairwise_iff_split.mp hfile.disjoint as ph bs hsplit ph' hph' _
      ⟨hph.covers_addr hk, hcovers⟩
  · have hnil : itemsAt (pdIndex (ph.addr k)) (ptIndex (ph.addr k)) (bs.flatMap file.pagesOf) =
        [] := by
      refine eq_nil_iff_forall_not_mem.mpr fun e he => hlater ?_
      obtain ⟨hmem, hat⟩ := mem_filter.mp he
      obtain ⟨ph', hph', hmem⟩ := mem_flatMap.mp hmem
      exact ⟨ph', hph', ((hbs ph' hph').pageByte_item (mem_filter.mpr ⟨hmem, hat⟩)).2⟩
    obtain ⟨e, he⟩ := Option.ne_none_iff_exists'.mp (mt getLast?_eq_none_iff.mp
      (hph.itemsAt_ne_nil file (hph.page_mem hk)))
    refine ⟨e, by rw [hnil, he]; rfl, ?_⟩
    rw [(hph.pageByte_item (mem_of_getLast? he)).1, hph.byteAt_addr hk]

theorem last_byte_iff (hall : P.map (fun pl => (pl.addr, pl.page)) = imagePages file)
    (hmapped : ∀ pl ∈ P, ∀ pl' ∈ P, pdIndex pl.addr = pdIndex pl'.addr → pl'.mapped = true →
      pl.mapped = true) :
    (lastOf P (pdIndex (ph.addr k)) (ptIndex (ph.addr k))).map
        (fun pl => pageByte pl.page (byteIndex (ph.addr k))) = some (file.image ph k) ↔
      (∃ pl ∈ P, pl.At (pdIndex (ph.addr k)) (ptIndex (ph.addr k))) ∧
        ((∃ ph' ∈ bs, pageAlignDown (ph.addr k) ∈ ph'.pages) → file.image ph k = 0) := by
  by_cases hin : ∃ pl ∈ P, pl.At (pdIndex (ph.addr k)) (ptIndex (ph.addr k))
  · rw [and_iff_right hin]
    obtain ⟨pl', hpl', hat⟩ := hin
    have hlast := lastOf_eq_getLast (j := ptIndex (ph.addr k)) fun pl hpl heq =>
      hmapped pl hpl pl' hpl' (heq.trans hat.2.1.symm) hat.1
    obtain ⟨e, he, hbyte⟩ := getLast_itemsAt hfile hsplit hk
    rw [hall, he] at hlast
    obtain ⟨pl, hpl, rfl⟩ := Option.map_eq_some_iff.mp hlast
    rw [hpl, Option.map_some, hbyte, Option.some.injEq]
    split_ifs with hlater
    · exact ⟨fun h _ => h.symm, fun h => (h hlater).symm⟩
    · exact iff_of_true rfl fun h => absurd h hlater
  · refine iff_of_false (fun h => hin ?_) fun h => hin h.1
    obtain ⟨pl, hpl, -⟩ := Option.map_eq_some_iff.mp h
    exact ⟨pl, at_of_lastOf hpl⟩

end Last

section

variable (hfile : file.WellFormed)

include hfile

theorem last_bytes_iff (hall : P.map (fun pl => (pl.addr, pl.page)) = imagePages file)
    (hmapped : ∀ pl ∈ P, ∀ pl' ∈ P, pdIndex pl.addr = pdIndex pl'.addr → pl'.mapped = true →
      pl.mapped = true) :
    (∀ ph ∈ file.segments, ∀ k < ph.memSize.toNat,
      (lastOf P (pdIndex (ph.addr k)) (ptIndex (ph.addr k))).map
        (fun pl => pageByte pl.page (byteIndex (ph.addr k))) = some (file.image ph k)) ↔
      Entered file P ∧ NotOverlaid file := by
  constructor
  · intro h
    refine ⟨fun ph hph k hk => ?_,
      pairwise_iff_split.mpr fun as ph bs hsplit ph' hph' k hk hv => ?_⟩
    · obtain ⟨as, bs, hsplit⟩ := append_of_mem hph
      exact ((last_byte_iff hfile hsplit hk hall hmapped).mp (h ph hph k hk)).1
    · have hph : ph ∈ file.segments := by
        rw [hsplit]
        exact mem_append_right _ mem_cons_self
      exact ((last_byte_iff hfile hsplit hk hall hmapped).mp (h ph hph k hk)).2 ⟨ph', hph', hv⟩
  · rintro ⟨hin, hover⟩ ph hph k hk
    obtain ⟨as, bs, hsplit⟩ := append_of_mem hph
    refine (last_byte_iff hfile hsplit hk hall hmapped).mpr ⟨hin ph hph k hk, ?_⟩
    rintro ⟨ph', hph', hv⟩
    exact pairwise_iff_split.mp hover as ph bs hsplit ph' hph' k hk hv

theorem ElfFile.WellFormed.landings_user {pl : Placement}
    (hpl : pl ∈ landings m file) : pdIndex pl.addr ≠ selfEntry := by
  have hmem : (pl.addr, pl.page) ∈ imagePages file :=
    (plan_isPrefix _ _ _).subset (mem_map_of_mem (f := fun pl => (pl.addr, pl.page)) hpl)
  rw [imagePages_eq] at hmem
  obtain ⟨ph, hph, hmem⟩ := mem_flatMap.mp hmem
  exact (hfile.user ph hph).pdIndex_page (mem_pages_of_mem hmem)

theorem ElfFile.WellFormed.of_no_pages (h : imagePages file = []) :
    Entered file P ∧ NotOverlaid file := by
  have hpages : ∀ ph ∈ file.segments, ph.pages = [] := by
    intro ph hph
    rw [imagePages_eq, flatMap_eq_nil_iff] at h
    rw [← map_fst_pagesOf file ph, h ph hph, map_nil]
  refine ⟨fun ph hph k hk => ?_, pairwise_iff_split.mpr ?_⟩
  · have hpage := (hfile.user ph hph).page_mem hk
    rw [hpages ph hph] at hpage
    cases hpage
  · intro as ph bs hsplit ph' hph' k hk hpage
    rw [hpages ph' (by rw [hsplit]; simp [hph'])] at hpage
    cases hpage

end

theorem showsImage_iff_of_created (h : m.Booted) (hc : Created m d w b)
    (hcall : createUserSpace m = some (d, b.setPage w win)) (hfile : file.WellFormed) :
    ShowsImage m file ↔ RunsOut m file ∨ Entered file (landings m file) ∧ NotOverlaid file := by
  have hb := hc.space
  obtain ⟨hlaid, hok⟩ : Laid b d (landings m file) (place d (imagePages file) b).2 ∧
      ((place d (imagePages file) b).1 = true ↔
        (landings m file).length = (imagePages file).length) := by
    have hself : ∀ pl ∈ landings m file, pdIndex pl.addr ≠ selfEntry :=
      fun pl hpl => hfile.landings_user hpl
    rw [landings, ← hc.free_eq] at hself ⊢
    exact (Laid.nil hb).place hb (startEntries_eq hb) _ hself
  have hread : ∀ ph ∈ file.segments, ∀ k < ph.memSize.toNat, ∀ win',
      (((place d (imagePages file) b).2.setPage w win').under (frame d)).loadByte (ph.addr k) =
        (lastOf (landings m file) (pdIndex (ph.addr k)) (ptIndex (ph.addr k))).map
          fun pl => pageByte pl.page (byteIndex (ph.addr k)) := fun ph hph k hk _ =>
    hlaid.loadByte hb (hb.reach.place _) (not_startEntries ((hfile.user ph hph).pdIndex_addr hk))
  obtain ⟨win', hload⟩ : ∃ win', elfLoadSegs file d (b.setPage w win) = _ :=
    elfLoadSegs_spec hb.reach (h.ne_zero d hc.directory_mem)
  have hshows : ShowsImage m file ↔ ((place d (imagePages file) b).1 = true →
      ∀ ph ∈ file.segments, ∀ k < ph.memSize.toNat,
        (lastOf (landings m file) (pdIndex (ph.addr k)) (ptIndex (ph.addr k))).map
          (fun pl => pageByte pl.page (byteIndex (ph.addr k))) = some (file.image ph k)) := by
    constructor
    · intro hall hplaced ph hph k hk
      have hreadable : file.readable = true := by
        by_contra hnot
        rw [ElfFile.segments, if_neg hnot] at hph
        cases hph
      rw [hreadable, hplaced] at hload
      rw [← hread ph hph k hk win']
      exact hall d _ _ hcall hload ph hph k hk
    · intro hall d' s s' hcall' hload' ph hph k hk
      cases hcall.symm.trans hcall'
      obtain ⟨htrue, rfl⟩ := Prod.mk.inj (Option.some.inj (hload.symm.trans hload'))
      rw [hread ph hph k hk]
      exact hall ((Bool.and_eq_true _ _).mp htrue).2 ph hph k hk
  have hprefix : (landings m file).map (fun pl => (pl.addr, pl.page)) <+: imagePages file :=
    plan_isPrefix _ _ _
  rw [hshows, hok]
  by_cases hlen : (landings m file).length = (imagePages file).length
  · have hall := hprefix.eq_of_length (by rw [length_map, hlen])
    have henough : ¬ RunsOut m file := fun hlt => Nat.ne_of_lt hlt hlen
    rw [forall_prop_of_true hlen, or_iff_right henough,
      last_bytes_iff hfile hall fun pl hpl pl' hpl' => mapped_of_mapped hpl hpl']
  · have hle := hprefix.length_le
    rw [length_map] at hle
    exact iff_of_true (fun heq => absurd heq hlen) (.inl (lt_of_le_of_ne hle hlen))

/-- A file is loaded as it should be exactly if frames lack or no page with bytes is made again. -/
theorem showsImage_iff (h : m.Booted) (hfile : file.WellFormed) : ShowsImage m file ↔
    RunsOut m file ∨ Entered file (landings m file) ∧ NotOverlaid file := by
  have hnone : framesLeft m = [] →
      RunsOut m file ∨ Entered file (landings m file) ∧ NotOverlaid file := by
    intro hleft
    have hplan : landings m file = [] := by rw [landings, hleft, plan_nil]
    cases hpages : imagePages file with
    | nil => exact .inr (hfile.of_no_pages hpages)
    | cons e pages =>
      refine .inl ?_
      rw [RunsOut, hplan, hpages]
      exact Nat.succ_pos _
  rcases h.create_cases with ⟨hfree, hcall⟩ | ⟨hcall, hw, hlen⟩ | ⟨d, w, b, win, hcall, hc⟩
  · refine iff_of_true (fun d s s' hs hload => ?_) (hnone ?_)
    · cases hcall.symm.trans hs
      rw [elfLoadSegs_zero] at hload
      cases hload
    · rw [framesLeft, hfree, drop_nil, drop_nil, ite_self]
  · refine iff_of_true (fun d s s' hs => ?_) (hnone ?_)
    · rw [hcall] at hs
      cases hs
    · rw [framesLeft, hw]
      exact drop_eq_nil_of_le (by omega)
  · exact showsImage_iff_of_created h hc hcall hfile

def twoPages : ElfFile :=
  elfFile [phdrWords 116 0x40000000 4 256, phdrWords 120 0x40001800 4 256] [0x11111111, 0x22222222]

theorem segments_twoPages : twoPages.segments =
    [⟨1, 116, 0x40000000, 4, 256⟩, ⟨1, 120, 0x40001800, 4, 256⟩] := by
  decide +kernel

theorem ElfFile.wellFormed_pair {file : ElfFile} {ph ph' : Phdr} (hseg : file.segments = [ph, ph'])
    (hph : ph.InUser) (hph' : ph'.InUser)
    (hle : ph.virAddress.toNat + ph.memSize.toNat ≤ ph'.virAddress.toNat) : file.WellFormed := by
  refine ⟨?_, ?_⟩ <;> rw [hseg]
  · simp [hph, hph']
  · rw [pairwise_pair]
    rintro x ⟨⟨-, h⟩, ⟨h', -⟩⟩
    omega

theorem twoPages_wellFormed : twoPages.WellFormed :=
  ElfFile.wellFormed_pair segments_twoPages ⟨by decide, by decide, by decide⟩
    ⟨by decide, by decide, by decide⟩ (by decide)

theorem twoPages_shown :
    ShowsImage (bootMachine [0x200000, 0x201000, 0x202000, 0x203000]) twoPages := by
  have hbooted : (bootMachine [0x200000, 0x201000, 0x202000, 0x203000]).Booted :=
    bootMachine_booted (by decide) (by decide) (by simp [frame])
  refine (showsImage_iff hbooted twoPages_wellFormed).mpr (.inr ⟨?_, ?_⟩)
  · rw [Entered, segments_twoPages]
    intro ph hph k hk
    simp only [mem_cons, not_mem_nil, or_false] at hph
    rcases hph with rfl | rfl
    · have hall : ∀ k < 256, pdIndex 0x40000000 = pdIndex (0x40000000 + BitVec.ofNat 32 k) ∧
          ptIndex 0x40000000 = ptIndex (0x40000000 + BitVec.ofNat 32 k) := by decide +kernel
      exact ⟨_, mem_cons_self, rfl, hall k hk⟩
    · have hall : ∀ k < 256, pdIndex 0x40001000 = pdIndex (0x40001800 + BitVec.ofNat 32 k) ∧
          ptIndex 0x40001000 = ptIndex (0x40001800 + BitVec.ofNat 32 k) := by decide +kernel
      exact ⟨_, mem_cons_of_mem _ mem_cons_self, rfl, hall k hk⟩
  · rw [NotOverlaid, segments_twoPages, pairwise_pair]
    have hall : ∀ k < 256, pageAlignDown (0x40000000 + BitVec.ofNat 32 k) ∉
        (⟨1, 120, 0x40001800, 4, 256⟩ : Phdr).pages := by decide +kernel
    exact fun k hk hpage => absurd hpage (hall k hk)

theorem segments_sharedPage : sharedPage.segments =
    [⟨1, 116, 0x40000000, 4, 256⟩, ⟨1, 120, 0x40000800, 4, 256⟩] := by
  decide +kernel

theorem sharedPage_wellFormed : sharedPage.WellFormed :=
  ElfFile.wellFormed_pair segments_sharedPage ⟨by decide, by decide, by decide⟩
    ⟨by decide, by decide, by decide⟩ (by decide)

theorem sharedPage_not_shown :
    (bootMachine [0x200000, 0x201000, 0x202000, 0x203000]).Booted ∧ sharedPage.WellFormed ∧
      ¬ ShowsImage (bootMachine [0x200000, 0x201000, 0x202000, 0x203000]) sharedPage := by
  have hbooted : (bootMachine [0x200000, 0x201000, 0x202000, 0x203000]).Booted :=
    bootMachine_booted (by decide) (by decide) (by simp [frame])
  refine ⟨hbooted, sharedPage_wellFormed, fun hshows => ?_⟩
  rcases hbooted.create_cases with ⟨hfree, -⟩ | ⟨-, -, hlen⟩ | ⟨d, w, b, win, hcall, hc⟩
  · cases hfree
  · cases hlen
  · rw [showsImage_iff_of_created hbooted hc hcall sharedPage_wellFormed] at hshows
    rcases hshows with hout | ⟨-, hover⟩
    · unfold RunsOut at hout
      exact absurd hout (by decide +kernel)
    · rw [NotOverlaid, segments_sharedPage, pairwise_pair] at hover
      exact absurd (hover 0 (by decide) (by decide +kernel)) (by decide +kernel)

end Aevros
