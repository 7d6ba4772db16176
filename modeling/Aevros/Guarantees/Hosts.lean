import Aevros.Guarantees.Frames

/-! # ARP among hosts of one network

Each host asks for addresses, answers for its own and learns from what it hears. Packets may come
late, more than once, or not at all, and to hosts that they are not for.
-/

namespace Aevros

open Function Runs List

/-- Hosts, and the ARP packets sent so far with the hardware addresses they came from. -/
structure ArpNet (ι : Type) where
  hosts : ι → Rolodex
  sent : List (List Byte × Mac) := []

/-- A packet may arrive anywhere, late, more than once or not at all. -/
inductive ArpEvent (ι : Type)
  | ask (h : ι) (target : Ip4)
  | answer (h : ι)
  | hear (h : ι) (now : Word) (n : ℕ)

namespace ArpNet

variable {ι : Type} {ip : ι → Ip4} {mac : ι → Mac}

def boot (ip : ι → Ip4) : ArpNet ι where
  hosts h := rolodexSetIp {} (ip h)

def step [DecidableEq ι] (mac : ι → Mac) (s : ArpNet ι) : ArpEvent ι → ArpNet ι
  | .ask h target =>
    { s with sent := s.sent ++ [((arpRequestFrame (s.hosts h) target (mac h)).drop 14, mac h)] }
  | .answer h =>
    let reply := rolodexBuildReply (s.hosts h) (mac h)
    ⟨update s.hosts h reply.2, s.sent ++ (reply.1.map (·, mac h)).toList⟩
  | .hear h now n =>
    match s.sent[n]? with
    | none => s
    | some (payload, m) =>
      { s with hosts := update s.hosts h (rolodexHandle now (s.hosts h) payload m) }

/-- The book has nothing but addresses of hosts, each with its own hardware address. -/
def Honest (ip : ι → Ip4) (mac : ι → Mac) (r : Rolodex) : Prop :=
  ∀ i, (r.book i).inUse = true → (r.book i).disputed = false ∧
    ∃ k, (r.book i).ip = ip k ∧ (r.book i).mac = mac k

/-- The packet names its sender. -/
def Names (ip : ι → Ip4) (mac : ι → Mac) (x : List Byte × Mac) : Prop :=
  ∃ k, x.2 = mac k ∧ Mac.read x.1 8 = mac k ∧ Ip4.read x.1 14 = ip k

/-- Each host has its address and an honest book, and what was sent names its sender. -/
structure Inv (ip : ι → Ip4) (mac : ι → Mac) (s : ArpNet ι) : Prop where
  ours : ∀ h, (s.hosts h).ourIp = ip h
  honest : ∀ h, Honest ip mac (s.hosts h)
  sent : ∀ x ∈ s.sent, Names ip mac x

theorem Honest.expireStaleEntries {r : Rolodex} (h : Honest ip mac r) (now : Word) :
    Honest ip mac (r.expireStaleEntries now) := by
  intro i hi
  have hlive := (Rolodex.expireStaleEntries_key.mp (RolodexEntry.key_eq_some_iff.mpr ⟨hi, rfl⟩)).1
  rw [Rolodex.expireStaleEntries_of_live hlive]
  exact h i hlive.1

theorem Honest.update {r r' : Rolodex} (h : Honest ip mac r) {i : Fin rolodexCapacity}
    {e : RolodexEntry} (hb : r'.book = Function.update r.book i e) (hd : e.disputed = false)
    {k : ι} (hip : e.ip = ip k) (hmac : e.mac = mac k) : Honest ip mac r' := by
  intro j hj
  rw [hb] at hj ⊢
  by_cases hji : j = i
  · rw [hji, update_self]
    exact ⟨hd, k, hip, hmac⟩
  · rw [update_of_ne hji] at hj ⊢
    exact h j hj

theorem Honest.learnOrDispute (hip : Injective ip) {r : Rolodex} (h : Honest ip mac r)
    (now : Word) (k : ι) : Honest ip mac (r.learnOrDispute now (ip k) (mac k)) := by
  have hexp := h.expireStaleEntries now
  rcases Rolodex.learnOrDispute_cases r now (ip k) (mac k) with
    ⟨i, hl, hi, hb⟩ | ⟨-, ⟨i, -, hb⟩ | hb⟩
  · obtain ⟨hd, k', hk, hm⟩ := h i hl.1
    obtain rfl := hip (hk.symm.trans hi)
    rw [RolodexEntry.claimed, if_pos hm] at hb
    exact hexp.update hb hd hk hm
  · exact hexp.update hb rfl rfl rfl
  · intro j
    rw [hb]
    exact hexp j

theorem rolodexHandle_cases (now : Word) (r : Rolodex) (payload : List Byte) (m : Mac) :
    (rolodexHandle now r payload m).ourIp = r.ourIp ∧
      ((rolodexHandle now r payload m).book = r.book ∨ (rolodexHandle now r payload m).book =
        (r.learnOrDispute now (Ip4.read payload 14) m).book) := by
  have hkeep := (Rolodex.learnOrDispute_keeps r now (Ip4.read payload 14) (Mac.read payload 8)).2.1
  unfold rolodexHandle
  dsimp only
  split_ifs with hlen hm
  · exact ⟨rfl, .inl rfl⟩
  · exact ⟨rfl, .inl rfl⟩
  all_goals
    rw [not_not] at hm
    exact ⟨hkeep, .inr (by rw [hm])⟩

theorem inv_boot (ip : ι → Ip4) (mac : ι → Mac) : (boot ip).Inv ip mac := by
  refine ⟨fun _ => rfl, fun _ i hi => ?_, fun x hx => ?_⟩
  · cases hi
  · cases hx

variable [DecidableEq ι]

theorem Inv.update {s : ArpNet ι} (h : s.Inv ip mac) {k : ι} {r : Rolodex} (hours : r.ourIp = ip k)
    (hr : Honest ip mac r) {sent : List (List Byte × Mac)} (hsent : ∀ x ∈ sent, Names ip mac x) :
    Inv ip mac ⟨Function.update s.hosts k r, sent⟩ where
  ours := (forall_update_iff s.hosts fun h r => r.ourIp = ip h).mpr ⟨hours, fun h' _ => h.ours h'⟩
  honest := (forall_update_iff s.hosts fun _ => Honest ip mac).mpr ⟨hr, fun h' _ => h.honest h'⟩
  sent := hsent

theorem Inv.step (hip : Injective ip) {s : ArpNet ι} (h : s.Inv ip mac) (e : ArpEvent ι) :
    (s.step mac e).Inv ip mac := by
  cases e with
  | ask k target =>
    refine ⟨h.ours, h.honest, forall_mem_append.mpr ⟨h.sent, forall_mem_singleton.mpr ?_⟩⟩
    exact ⟨k, rfl, rfl, h.ours k⟩
  | answer k =>
    obtain hp | ⟨x, hp⟩ := Option.eq_none_or_eq_some (s.hosts k).pendingReply
    · simp only [ArpNet.step, rolodexBuildReply, hp]
      exact h.update (h.ours k) (h.honest k) (by simpa using h.sent)
    · simp only [ArpNet.step, rolodexBuildReply, hp]
      refine h.update (r := { s.hosts k with pendingReply := none }) (h.ours k) (h.honest k) ?_
      exact forall_mem_append.mpr ⟨h.sent, forall_mem_singleton.mpr ⟨k, rfl, rfl, h.ours k⟩⟩
  | hear k now n =>
    rw [ArpNet.step]
    cases hn : s.sent[n]? with
    | none => exact h
    | some x =>
      obtain ⟨k', hfrom, -, hread⟩ := h.sent x (mem_of_getElem? hn)
      obtain ⟨hours, hbook⟩ := rolodexHandle_cases now (s.hosts k) x.1 x.2
      refine h.update (hours.trans (h.ours k)) (fun i => ?_) h.sent
      rw [hfrom, hread] at hbook
      rcases hbook with hbook | hbook
      · rw [hfrom, hbook]
        exact h.honest k i
      · rw [hfrom, hbook]
        exact (h.honest k).learnOrDispute hip now k' i

end ArpNet

/-- Among hosts that use ARP as this one does, in any order of asking, answering and arrival, no
book has a wrong hardware address or a disputed entry. -/
theorem arp_books_honest {ι : Type} [DecidableEq ι] (ip : ι → Ip4) (mac : ι → Mac)
    (hip : Injective ip) (es : List (ArpEvent ι)) (h : ι) (a : Ip4) :
    let r := (run (ArpNet.step mac) (ArpNet.boot ip) es).hosts h
    rolodexDisputed r a = false ∧ ∀ m, rolodexLookup r a = some m → ∃ k, a = ip k ∧ m = mac k := by
  intro r
  have hr : ArpNet.Honest ip mac r :=
    (run_invariant (fun _ e hs => hs.step hip e) (ArpNet.inv_boot ip mac) es).honest h
  unfold rolodexDisputed rolodexLookup
  cases hf : r.findEntry a with
  | none => exact ⟨rfl, nofun⟩
  | some i =>
    have hi := Fin.eq_true_of_find?_eq_some hf
    simp only [Bool.and_eq_true, decide_eq_true_eq] at hi
    obtain ⟨hd, k, hk, hm⟩ := hr i hi.1
    refine ⟨hd, fun m hm' => ⟨k, hi.2.symm.trans hk, ?_⟩⟩
    exact (Option.some.inj hm').symm.trans hm

def pairIp (h : Fin 2) : Ip4 := ⟨10, 0, 0, BitVec.ofNat 8 h⟩

def pairMac (h : Fin 2) : Mac := ⟨2, 0, 0, 0, 0, BitVec.ofNat 8 h⟩

theorem arp_books_honest_pair :
    let r := (run (ArpNet.step pairMac) (ArpNet.boot pairIp)
      [.ask 0 (pairIp 1), .hear 1 5 0, .answer 1, .hear 0 6 1]).hosts 0
    rolodexLookup r (pairIp 1) = some (pairMac 1) ∧ rolodexDisputed r (pairIp 1) = false := by
  refine ⟨by decide +kernel, (arp_books_honest pairIp pairMac ?_ _ 0 _).1⟩
  decide

end Aevros
