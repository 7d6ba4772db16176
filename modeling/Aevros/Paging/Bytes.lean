import Aevros.Paging.Clone

/-! # Bytes of a page

A word has its bytes in little-endian order. Writing a byte leaves the other three of its
word.
-/

namespace Aevros

open BitVec List Fin

section

variable (x : Word)

def wordByte (k : Fin 4) : Byte := x.extractLsb' (8 * k) 8

def setWordByte (k : Fin 4) (b : Byte) : Word :=
  (x &&& ~~~((0xFF : Word) <<< (8 * k.val))) ||| (b.setWidth 32 <<< (8 * k.val))

theorem getLsbD_mask (n : ℕ) : (0xFF : Word).getLsbD n = decide (n < 8) := by
  by_cases hn : n < 32
  · have hall : ∀ n < 32, (0xFF : Word).getLsbD n = decide (n < 8) := by decide
    exact hall n hn
  · rw [getLsbD_of_ge _ _ (by omega), decide_eq_false (by omega)]

theorem getLsbD_setWordByte (k : Fin 4) (b : Byte) {n : ℕ} (hn : n < 32) :
    (setWordByte x k b).getLsbD n =
      if n / 8 = k.val then b.getLsbD (n % 8) else x.getLsbD n := by
  simp only [setWordByte, getLsbD_or, getLsbD_and, getLsbD_not, getLsbD_shiftLeft, getLsbD_mask, hn]
  rcases Nat.lt_trichotomy (n / 8) k.val with hlt | heq | hgt
  · have hbelow : n < 8 * k.val := by omega
    simp [hbelow, hlt.ne]
  · have hge : ¬ n < 8 * k.val := by omega
    have hsub : n - 8 * k.val = n % 8 := by omega
    have hmod : n % 8 < 8 := Nat.mod_lt _ (by decide)
    have hmod' : n % 8 < 32 := by omega
    simp [hge, heq, hsub, hmod, hmod']
  · have habove : ¬ n - 8 * k.val < 8 := by omega
    have hbyte : b.getLsbD (n - 8 * k.val) = false := getLsbD_of_ge _ _ (by omega)
    simp [habove, hgt.ne', hbyte]

theorem getLsbD_wordByte (k : Fin 4) {n : ℕ} (hn : n < 8) :
    (wordByte x k).getLsbD n = x.getLsbD (8 * k + n) := by
  rw [wordByte, getLsbD_extractLsb', decide_eq_true hn, Bool.true_and]

theorem wordByte_setWordByte (k l : Fin 4) (b : Byte) :
    wordByte (setWordByte x k b) l = if l = k then b else wordByte x l := by
  apply eq_of_getLsbD_eq
  intro n hn
  have hdiv : (8 * l.val + n) / 8 = l.val := by omega
  have hmod : (8 * l.val + n) % 8 = n := by omega
  rw [getLsbD_wordByte _ _ hn, getLsbD_setWordByte _ _ _ (by omega), hdiv, hmod]
  by_cases h : l = k
  · rw [if_pos h, if_pos (congrArg val h)]
  · rw [if_neg h, if_neg fun hv => h (Fin.ext hv), getLsbD_wordByte _ _ hn]

end

theorem eq_of_wordByte {x y : Word} (h : ∀ k, wordByte x k = wordByte y k) : x = y := by
  apply eq_of_getLsbD_eq
  intro n hn
  have hsum : 8 * (n / 8) + n % 8 = n := Nat.div_add_mod n 8
  have hbit := congrArg (fun b : Byte => b.getLsbD (n % 8)) (h ⟨n / 8, by omega⟩)
  simp only [getLsbD_wordByte _ _ (Nat.mod_lt n (by decide : 0 < 8)), hsum] at hbit
  exact hbit

def byteWord (k : Fin 4096) : Fin 1024 := ⟨k / 4, by omega⟩

def bytePlace (k : Fin 4096) : Fin 4 := ⟨k % 4, Nat.mod_lt _ (by decide)⟩

section

variable (page : Page) (k : Fin 4096)

def pageByte : Byte := wordByte (page (byteWord k)) (bytePlace k)

def setPageByte (b : Byte) : Page :=
  Function.update page (byteWord k) (setWordByte (page (byteWord k)) (bytePlace k) b)

theorem eq_of_byteWord {k l : Fin 4096} (hw : byteWord k = byteWord l)
    (hp : bytePlace k = bytePlace l) : k = l := by
  have hw' : k.val / 4 = l.val / 4 := congrArg val hw
  have hp' : k.val % 4 = l.val % 4 := congrArg val hp
  omega

theorem pageByte_setPageByte (k l : Fin 4096) (b : Byte) :
    pageByte (setPageByte page k b) l = if l = k then b else pageByte page l := by
  rw [pageByte, setPageByte]
  by_cases hw : byteWord l = byteWord k
  · rw [hw, Function.update_self, wordByte_setWordByte, ← hw]
    exact if_congr ⟨eq_of_byteWord hw, congrArg bytePlace⟩ rfl rfl
  · rw [Function.update_of_ne hw, if_neg fun h => hw (congrArg byteWord h)]
    rfl

theorem eq_of_pageByte {page page' : Page} (h : ∀ k, pageByte page k = pageByte page' k) :
    page = page' := by
  funext i
  refine eq_of_wordByte fun k => ?_
  have hword : byteWord ⟨4 * i + k, by omega⟩ = i := Fin.ext (by simp only [byteWord]; omega)
  have hplace : bytePlace ⟨4 * i + k, by omega⟩ = k := Fin.ext (by simp only [bytePlace]; omega)
  have hbyte := h ⟨4 * i + k, by omega⟩
  rwa [pageByte, pageByte, hword, hplace] at hbyte

def writeBytes (l : List (Fin 4096 × Byte)) : Page :=
  l.foldl (fun page kb => setPageByte page kb.1 kb.2) page

theorem writeBytes_cons (b : Byte) (l : List (Fin 4096 × Byte)) :
    writeBytes page ((k, b) :: l) = writeBytes (setPageByte page k b) l := rfl

end

theorem pageByte_writeBytes_of_not_mem {page : Page} {k : Fin 4096} {l : List (Fin 4096 × Byte)}
    (h : ∀ b, (k, b) ∉ l) : pageByte (writeBytes page l) k = pageByte page k := by
  induction l generalizing page with
  | nil => rfl
  | cons kb l ih =>
    obtain ⟨k', b⟩ := kb
    have hne : k ≠ k' := fun heq => h b (by rw [heq]; exact mem_cons_self)
    rw [writeBytes_cons, ih fun b' hb' => h b' (mem_cons_of_mem _ hb'),
      pageByte_setPageByte, if_neg hne]

theorem pageByte_writeBytes_of_mem {page : Page} {k : Fin 4096} {b : Byte}
    {l : List (Fin 4096 × Byte)} (h : (k, b) ∈ l) (hnodup : (l.map Prod.fst).Nodup) :
    pageByte (writeBytes page l) k = b := by
  induction l generalizing page with
  | nil => cases h
  | cons kb l ih =>
    rw [map_cons, nodup_cons] at hnodup
    rw [writeBytes_cons]
    rcases mem_cons.mp h with heq | hl
    · cases heq
      rw [pageByte_writeBytes_of_not_mem fun b' hb' => hnodup.1 (mem_map.mpr ⟨_, hb', rfl⟩),
        pageByte_setPageByte, if_pos rfl]
    · exact ih hl hnodup.2

def byteIndex (v : Word) : Fin 4096 := ⟨v.toNat % 4096, Nat.mod_lt _ (by decide)⟩

def byteAddr (p : Word) (k : Fin 4096) : Word := p + BitVec.ofNat 32 k

section Addresses

variable {p : Word} (hp : 4096 ∣ p.toNat)

include hp

variable (k : Fin 4096)

theorem toNat_byteAddr : (byteAddr p k).toNat = p.toNat + k := by
  rw [byteAddr, toNat_add, toNat_ofNat, Nat.mod_eq_of_lt (a := k.val) (by omega),
    Nat.mod_eq_of_lt (by omega)]

theorem pdIndex_byteAddr : pdIndex (byteAddr p k) = pdIndex p := by
  apply Fin.ext
  simp only [pdIndex, toNat_byteAddr hp]
  omega

theorem ptIndex_byteAddr : ptIndex (byteAddr p k) = ptIndex p := by
  apply Fin.ext
  simp only [ptIndex, toNat_byteAddr hp]
  omega

theorem byteIndex_byteAddr : byteIndex (byteAddr p k) = k := by
  apply Fin.ext
  simp only [byteIndex, toNat_byteAddr hp]
  omega

end Addresses

namespace Machine

variable {a s : Machine} {w f : ℕ} {win : Page} {v q p : Word} {k : Fin 4096} {b : Byte}

def loadByte (s : Machine) (v : Word) : Option Byte :=
  (s.pageAt v).map fun f => pageByte (s.mem f) (byteIndex v)

def storeByte (s : Machine) (v : Word) (b : Byte) : Option Machine :=
  (s.pageAt v).map fun f => s.setPage f (setPageByte (s.mem f) (byteIndex v) b)

def storeBytes (s : Machine) (p : Word) (l : List (Fin 4096 × Byte)) : Option Machine :=
  l.foldlM (fun s kb => s.storeByte (byteAddr p kb.1) kb.2) s

theorem storeByte_byteAddr (hp : 4096 ∣ p.toNat) (h : s.pageAt p = some f) :
    s.storeByte (byteAddr p k) b = some (s.setPage f (setPageByte (s.mem f) k b)) := by
  have hat : s.pageAt (byteAddr p k) = some f := by
    rw [← h, pageAt, pdIndex_byteAddr hp, ptIndex_byteAddr hp, pageAt]
  rw [storeByte, hat, byteIndex_byteAddr hp]
  rfl

theorem Wired.storeBytes_behind (h : a.Wired w) (hs : Shows win v q) (hq : frame q ≠ w)
    (hc : frame q ≠ a.cr3) (l : List (Fin 4096 × Byte)) :
    (a.setPage w win).storeBytes v l =
      some ((a.setPage (frame q) (writeBytes (a.mem (frame q)) l)).setPage w win) := by
  induction l generalizing a with
  | nil =>
    rw [writeBytes, foldl_nil, setPage_self]
    rfl
  | cons kb l ih =>
    have h' : (a.setPage (frame q) (setPageByte (a.mem (frame q)) kb.1 kb.2)).Wired w :=
      h.setPage hc
    rw [storeBytes, foldlM_cons, storeByte_byteAddr hs.aligned (h.pageAt_behind hs),
      mem_setPage_of_ne hq, setPage_comm hq.symm]
    refine (ih h' hc).trans ?_
    rw [mem_setPage_self, setPage_setPage]
    rfl

end Machine

end Aevros
