import Aevros.Library.Runs
import Aevros.Services.Directory

/-! # What the DNS client reads, believes and keeps

The parser of replies stays inside the datagram if the names and records in it end there. Who sent a
datagram is not looked at.
-/

namespace Aevros

open Runs DirectoryEntry Keyed Reads List Option Function

variable {m : ℕ → Byte} {got fuel n i e : ℕ}

def nameEnd (m : ℕ → Byte) (got i : ℕ) : Option ℕ :=
  if i < got then
    if m i = 0 then some (i + 1)
    else if m i &&& 0xC0 = 0xC0 then some (i + 2)
    else nameEnd m got (i + (m i).toNat + 1)
  else none
termination_by got - i

def field16 (m : ℕ → Byte) (i : ℕ) : Port := m i ++ m (i + 1)

abbrev Usable (m : ℕ → Byte) (got e : ℕ) : Prop :=
  field16 m e = 1 ∧ field16 m (e + 2) = 1 ∧ field16 m (e + 8) = 4 ∧ e + 10 + 4 ≤ got

/-- Up to the first address, the names and the fixed parts of `n` records are inside. -/
def RecordsInside (m : ℕ → Byte) (got : ℕ) : ℕ → ℕ → Prop
  | 0, _ => True
  | n + 1, i => i + 10 ≤ got → ∃ e ∈ nameEnd m got i, e + 10 ≤ got ∧
      (¬ Usable m got e → RecordsInside m got n ((e + 10 + (field16 m (e + 8)).toNat) % 65536))

/-- If the datagram is a reply with answers, then its question and its records are inside. -/
def DnsDatagram.Inside (r : DnsDatagram) (id : Port) : Prop :=
  12 ≤ r.got → field16 r.memory 0 = id → field16 r.memory 6 ≠ 0 → ∃ e ∈ nameEnd r.memory r.got 12,
      RecordsInside r.memory r.got (field16 r.memory 6).toNat ((e + 4) % 65536)

@[simp] theorem run_be16 : (Observe.be16 i).run m = field16 m i := rfl

@[simp] theorem within_be16 : Within m got (Observe.be16 i) ↔ i + 1 < got := by
  simp [Observe.be16]
  omega

theorem within_beIpv4 : Within m got (Observe.beIpv4 i) ↔ i + 3 < got := by
  simp [Observe.beIpv4]
  omega

theorem within_readIp : Within m got (Observe.readIp i) ↔ i + 3 < got := by
  simp [Observe.readIp]
  omega

theorem skipName_iff (hgot : got ≤ dnsMaxPacket) (hfuel : got < fuel + i) :
    Within m got (skipName fuel i) ∧ (skipName fuel i).run m = some e ↔
      nameEnd m got i = some e := by
  unfold dnsMaxPacket at hgot
  induction fuel generalizing i with
  | zero =>
    rw [nameEnd, if_neg (by omega)]
    simp [skipName]
  | succ fuel ih =>
    rw [skipName, nameEnd]
    simp only [within_bind, within_cell, run_bind, run_cell]
    by_cases hi : i < got
    swap
    · simp [hi]
    rw [if_pos hi, and_assoc, and_iff_right hi]
    by_cases hzero : m i = 0
    · simp [hzero, Nat.mod_eq_of_lt (show i + 1 < 65536 by omega)]
    by_cases hpointer : m i &&& 0xC0 = 0xC0
    · simp only [hzero, hpointer, if_true, if_false]
      simp [Nat.mod_eq_of_lt (show i + 2 < 65536 by omega)]
    · simp only [hzero, hpointer, if_false]
      rw [Nat.mod_eq_of_lt (by omega)]
      exact ih (by omega)

def Safe (m : ℕ → Byte) (got : ℕ) (x : Reads Byte Reply) : Prop :=
  Within m got x ∧ x.run m ≠ .endless

@[simp] theorem safe_pure (a : Reply) : Safe m got (pure a) ↔ a ≠ .endless := by
  simp [Safe]

@[simp] theorem safe_bind {α : Type} {x : Reads Byte α} {f : α → Reads Byte Reply} :
    Safe m got (x >>= f) ↔ Within m got x ∧ Safe m got (f (x.run m)) := by
  simp [Safe, and_assoc]

theorem safe_skipName_bind (hgot : got ≤ dnsMaxPacket) (hfuel : got < fuel)
    {k : Option ℕ → Reads Byte Reply} (hk : k none = pure .endless) :
    Safe m got (skipName fuel i >>= k) ↔ ∃ e ∈ nameEnd m got i, Safe m got (k (some e)) := by
  have hskip : ∀ e, _ ↔ nameEnd m got i = some e :=
    fun e => skipName_iff (m := m) hgot (show got < fuel + i by omega)
  rw [safe_bind]
  constructor
  · rintro ⟨hin, hrest⟩
    cases he : (skipName fuel i).run m with
    | none => simp [he, hk] at hrest
    | some e => exact ⟨e, (hskip e).mp ⟨hin, he⟩, he ▸ hrest⟩
  · rintro ⟨e, he, hrest⟩
    obtain ⟨hin, hrun⟩ := (hskip e).mpr he
    exact ⟨hin, hrun ▸ hrest⟩

theorem readAnswers_iff (hgot : got ≤ dnsMaxPacket) (hfuel : got < fuel) :
    Safe m got (readAnswers fuel got n i) ↔ RecordsInside m got n i := by
  induction n generalizing i with
  | zero => simp [readAnswers, RecordsInside]
  | succ n ih =>
    rw [readAnswers, RecordsInside]
    by_cases hmore : got < i + 10
    · rw [if_pos hmore]
      simp
      omega
    rw [if_neg hmore, forall_prop_of_true (by omega), safe_skipName_bind hgot hfuel rfl]
    refine exists_congr fun e => and_congr_right fun _ => ?_
    unfold dnsMaxPacket at hgot
    simp only [safe_bind, within_be16, within_beIpv4]
    rw [run_be16, run_be16, run_be16]
    by_cases hfixed : e + 10 ≤ got
    swap
    · simp only [hfixed, false_and, iff_false]
      rintro ⟨-, -, -, h, -⟩
      omega
    rw [Nat.mod_eq_of_lt (show e + 10 < 65536 by omega), and_iff_right (by omega),
      and_iff_right (by omega), and_iff_right (by omega), and_iff_right (by omega),
      and_iff_right hfixed]
    by_cases huse : Usable m got e
    · rw [if_pos huse, safe_bind, within_readIp]
      have hin : e + 10 + 3 < got := huse.2.2.2
      simp [hin, huse]
    · rw [if_neg huse, ih, forall_prop_of_true huse]

theorem readReply_iff (r : DnsDatagram) (id : Port) (hfuel : r.got < fuel) :
    Safe r.memory r.got (readReply fuel r.got id) ↔ r.Inside id := by
  unfold readReply DnsDatagram.Inside
  by_cases hshort : r.got < 12
  · rw [if_pos hshort]
    simp
    omega
  rw [if_neg hshort, forall_prop_of_true (by omega)]
  simp only [safe_bind, within_be16]
  rw [run_be16, run_be16, and_iff_right (by omega), and_iff_right (by omega)]
  by_cases hreply : field16 r.memory 0 = id ∧ field16 r.memory 6 ≠ 0
  · rw [if_pos hreply, safe_skipName_bind r.got_le hfuel rfl, forall_prop_of_true hreply.1,
      forall_prop_of_true hreply.2]
    simp only [readAnswers_iff r.got_le hfuel]
  · rw [if_neg hreply]
    simpa using fun hid hcount => absurd ⟨hid, hcount⟩ hreply

theorem reply_read_inside_iff (d : Directory) (r : DnsDatagram) :
    Safe r.memory r.got (readReply 65536 r.got d.pendingId) ↔ r.Inside d.pendingId :=
  readReply_iff r d.pendingId (r.got_le.trans_lt (by decide))

def headerOnly : DnsDatagram where
  srcIp := ⟨10, 0, 2, 3⟩
  srcPort := 53
  got := 12
  got_le := by decide
  memory := fun i => if i = 1 ∨ i = 7 then 1 else 0

theorem header_only_overread :
    ¬ Safe headerOnly.memory headerOnly.got (readReply 65536 headerOnly.got 1) := by
  rw [readReply_iff headerOnly 1 (by decide)]
  intro h
  obtain ⟨e, he, -⟩ := h (by decide) (by decide) (by decide)
  simp [nameEnd, headerOnly] at he

def DirectoryEntry.key (e : DirectoryEntry) : Option Hostname := tag e.inUse e.hostname

/-- A hostname has one entry, and every name was cut to what the buffers take. -/
structure Directory.Sound (d : Directory) : Prop where
  unique : Unique key d.cache
  short : ∀ i, (d.cache i).hostname.length < directoryMaxHostname
  pending : d.pendingHostname.length < directoryMaxHostname

namespace Directory

variable {d : Directory} {now : Word} {g h : Hostname} {slot : Fin directoryCacheCapacity}

def entry (d : Directory) (h : Hostname) : Option DirectoryEntry :=
  (d.findCacheSlot h).map d.cache

def Room (d : Directory) (h : Hostname) : Prop :=
  (d.findCacheSlot h).isSome ∨ ∃ i, (d.cache i).inUse = false

theorem strncpy_length_lt : (strncpy h directoryMaxHostname).length < directoryMaxHostname := by
  unfold strncpy directoryMaxHostname
  rw [length_take]
  omega

theorem strncpy_of_short (hh : h.length < directoryMaxHostname) :
    strncpy h directoryMaxHostname = h :=
  take_of_length_le (Nat.le_sub_one_of_lt hh)

theorem strncmpEq_eq (hg : g.length < directoryMaxHostname) :
    strncmpEq g h directoryMaxHostname = decide (g = h) := by
  rw [strncmpEq, decide_eq_decide, take_of_length_le hg.le]
  constructor
  · intro heq
    rw [heq, length_take] at hg
    rw [heq, take_of_length_le (by omega)]
  · rintro rfl
    rw [take_of_length_le hg.le]

def fresh (now : Word) (h : Hostname) (ip : Ip4) (ttl : Word) : DirectoryEntry :=
  ⟨h, ip, now + ttl * 100, true⟩

theorem entry_congr {d' : Directory} (hcache : d'.cache = d.cache) : d'.entry = d.entry := by
  ext1 g
  simp only [entry, findCacheSlot, hcache]

section

variable (hs : d.Sound)

include hs

theorem findCacheSlot_eq (h : Hostname) : d.findCacheSlot h = find key d.cache h := by
  unfold findCacheSlot find
  congr 1
  ext i
  simp [key, strncmpEq_eq (hs.short i)]

theorem entry_eq (h : Hostname) : d.entry h = Keyed.get key d.cache h := by
  rw [entry, findCacheSlot_eq hs, Keyed.get]

theorem place_isSome_iff (h : Hostname) : (Keyed.place key d.cache h).isSome ↔ d.Room h := by
  rw [Room, findCacheSlot_eq hs, Keyed.place]
  cases find key d.cache h with
  | some i => simp
  | none =>
    rw [isSome_iff_ne_none, Ne, free_eq_none_iff]
    simp [key]

section

variable (hh : h.length < directoryMaxHostname)

include hh

variable (ip : Ip4) (ttl : Word)

theorem storeInCache_cache : (d.storeInCache now h ip ttl).cache =
      update d.cache ((Keyed.place key d.cache h).getD 0) (fresh now h ip ttl) := by
  have hfree := free_tag inUse hostname d.cache
  unfold storeInCache Keyed.place
  rw [hfree, findCacheSlot_eq hs, strncpy_of_short hh, fresh]
  cases find key d.cache h <;> rfl

theorem Sound.storeInCache : (d.storeInCache now h ip ttl).Sound := by
  refine ⟨?_, ?_, hs.pending⟩
  · rw [storeInCache_cache hs hh]
    exact hs.unique.update (place_getD_taken rfl)
  · rw [storeInCache_cache hs hh]
    intro i
    rw [update_apply]
    split_ifs
    · exact hh
    · exact hs.short i

theorem entry_store : (d.storeInCache now h ip ttl).entry h = some (fresh now h ip ttl) := by
  rw [entry_eq (hs.storeInCache hh ip ttl), storeInCache_cache hs hh,
    hs.unique.get_update (place_getD_taken rfl)]
  exact if_pos rfl

theorem entry_store_of_ne (hroom : d.Room h) (hne : g ≠ h) :
    (d.storeInCache now h ip ttl).entry g = d.entry g := by
  obtain ⟨i, hi⟩ := isSome_iff_exists.mp ((place_isSome_iff hs h).mpr hroom)
  rw [entry_eq (hs.storeInCache hh ip ttl), entry_eq hs, storeInCache_cache hs hh, hi]
  exact (hs.unique.get_write hi rfl g).trans (if_neg hne)

end

theorem Sound.congr {d' : Directory} (hcache : d'.cache = d.cache)
    (hpending : d'.pendingHostname.length < directoryMaxHostname) : d'.Sound :=
  ⟨hcache ▸ hs.unique, hcache ▸ hs.short, hpending⟩

end

/-- Nothing happens to the cache, but that an entry for `h` that is too old may be dropped. -/
def Forgets (now : Word) (h : Hostname) (d d' : Directory) : Prop :=
  d'.Sound ∧ ∀ g, d'.entry g = d.entry g ∨
    g = h ∧ d'.entry g = none ∧ ∃ x, d.entry g = some x ∧ x.expiredAtTick ≤ now

theorem forgets_of_cache {d' d'' : Directory} (h' : Forgets now h d d')
    (hcache : d''.cache = d'.cache) (hpending : d''.pendingHostname.length < directoryMaxHostname) :
    Forgets now h d d'' :=
  ⟨h'.1.congr hcache hpending, fun g => entry_congr hcache ▸ h'.2 g⟩

section

variable (hs : d.Sound)

include hs

theorem forgets_self : Forgets now h d d := ⟨hs, fun _ => .inl rfl⟩

theorem forgets_lookup (now : Word) (h : Hostname) :
    Forgets now h d (d.directoryLookupCached now h).2 := by
  unfold directoryLookupCached
  cases hf : d.findCacheSlot h with
  | none => exact forgets_self hs
  | some i =>
    dsimp only
    split_ifs with hold
    swap
    · exact forgets_self hs
    have hi := key_of_find (findCacheSlot_eq hs h ▸ hf)
    have hno : ∀ k, key { d.cache i with inUse := false } ≠ some k := by
      simp [key]
    have hs' : Sound { d with
        cache := update d.cache i { d.cache i with inUse := false } } := by
      refine ⟨hs.unique.update fun k hk => absurd hk (hno k), fun j => ?_, hs.pending⟩
      dsimp only
      rw [update_apply]
      split_ifs
      · exact hs.short i
      · exact hs.short j
    refine ⟨hs', fun g => ?_⟩
    rw [entry_eq hs', entry_eq hs, hs.unique.get_update fun k hk => absurd hk (hno k),
      if_neg (hno g), hi]
    split_ifs with hg
    · have hget := hs.unique.get_eq_some_iff.mpr ⟨i, rfl, hi.trans hg⟩
      exact .inr ⟨(some.inj hg).symm, rfl, _, hget, hold⟩
    · exact .inl rfl

theorem forgets_query (now : Word) (h : Hostname) :
    Forgets now h d (d.directoryQuery now h).2.1 := by
  have hlookup := forgets_lookup hs now h
  unfold directoryQuery
  dsimp only
  split_ifs
  · exact hlookup
  · exact hlookup
  · exact hlookup
  · exact forgets_of_cache hlookup rfl strncpy_length_lt

theorem forgets_timeOut (now : Word) : Forgets now d.pendingHostname d (d.timeOut now) := by
  unfold timeOut
  rw [strncpy_of_short hs.pending]
  split_ifs
  · exact forgets_self hs
  · exact forgets_of_cache (forgets_self hs) rfl hs.pending
  · have hquery := forgets_query (d := { d with pendingSentTick := now, pendingActive := false })
      ⟨hs.unique, hs.short, hs.pending⟩ now d.pendingHostname
    exact forgets_of_cache hquery rfl hquery.1.pending

end

inductive Event
  | setServer (ip : Ip4)
  | lookup (hostname : Hostname)
  | query (hostname : Hostname)
  | tick (r : DnsDatagram)

def Event.hostname (d : Directory) : Event → Hostname
  | .setServer _ => []
  | .lookup h => h
  | .query h => h
  | .tick _ => d.pendingHostname

def step (d : Directory) (e : ℕ × Event) : Directory :=
  let now := BitVec.ofNat 32 e.1
  match e.2 with
  | .setServer ip => d.directorySetServer ip
  | .lookup h => (d.directoryLookupCached now h).2
  | .query h => (d.directoryQuery now h).2.1
  | .tick r => d.directoryTick now r

def Stores (d : Directory) (e : ℕ × Event) (r : DnsDatagram) (ip : Ip4) (ttl : Word) : Prop :=
  e.2 = .tick r ∧ d.pendingActive = true ∧ d.replyIn r = .answer ip ttl

theorem step_of_stores {e : ℕ × Event} {r : DnsDatagram} {ip : Ip4} {ttl : Word}
    (h : d.Stores e r ip ttl) : (d.step e).pendingHostname = d.pendingHostname ∧
      (d.step e).cache = (d.storeInCache (BitVec.ofNat 32 e.1) d.pendingHostname ip
        (if ttl = 0 then 60 else ttl)).cache := by
  obtain ⟨he, hactive, hreply⟩ := h
  simp [step, he, directoryTick, hactive, hreply, storeInCache]

theorem step_cases (hs : d.Sound) (e : ℕ × Event) :
    Forgets (BitVec.ofNat 32 e.1) (e.2.hostname d) d (d.step e) ∨
      ∃ r ip ttl, d.Stores e r ip ttl := by
  obtain ⟨t, e⟩ := e
  cases e with
  | setServer ip => exact .inl (forgets_of_cache (forgets_self hs) rfl hs.pending)
  | lookup h => exact .inl (forgets_lookup hs _ h)
  | query h => exact .inl (forgets_query hs _ h)
  | tick r =>
    simp only [step, directoryTick, Stores, Event.hostname]
    split_ifs with hactive
    · exact .inl (forgets_self hs)
    cases hreply : d.replyIn r with
    | ignored => exact .inl (forgets_timeOut hs _)
    | noAnswer => exact .inl (forgets_of_cache (forgets_self hs) rfl hs.pending)
    | answer ip ttl => exact .inr ⟨r, ip, ttl, rfl, by simpa using hactive, hreply⟩
    | endless => exact .inl (forgets_self hs)

theorem sound_step (hs : d.Sound) (e : ℕ × Event) : (d.step e).Sound := by
  obtain hforgets | ⟨r, ip, ttl, hstores⟩ := step_cases hs e
  · exact hforgets.1
  · obtain ⟨hpending, hcache⟩ := step_of_stores hstores
    exact (hs.storeInCache hs.pending ip _).congr hcache (hpending ▸ hs.pending)

theorem sound_run (es : List (ℕ × Event)) : (run step {} es).Sound := by
  refine run_invariant (I := Sound) (fun _ e hs => sound_step hs e) ⟨?_, by decide, by decide⟩ es
  intro i j k hi
  simp [key] at hi

def addressReply (srcIp : Ip4) (srcPort : Port) (question : List Byte) : DnsDatagram :=
  let bytes := [0, 1, 0x80, 0, 0, 1, 0, 1, 0, 0, 0, 0] ++ question ++
    [0, 1, 0, 1, 0xC0, 12, 0, 1, 0, 1, 0, 0, 0, 60, 0, 4, 10, 0, 2, 99]
  ⟨srcIp, srcPort, min bytes.length dnsMaxPacket, Nat.min_le_right .., (bytes.getD · 0)⟩

def asking (h : Hostname) : List (ℕ × Event) := [(0, .setServer ⟨10, 0, 2, 3⟩), (0, .query h)]

def properReply : DnsDatagram := addressReply ⟨10, 0, 2, 3⟩ 53 (encodeName [97])

/-- The event takes no answer in place of that for the hostname. -/
def Spares (h : Hostname) (d : Directory) (e : ℕ × Event) : Prop :=
  ∀ r ip ttl, d.Stores e r ip ttl → d.pendingHostname ≠ h ∧ d.Room d.pendingHostname

/-- The tick counter wraps neither between the time and the deadline nor the other way. -/
def SameTurn (deadline t : ℕ) : Prop := t / 2 ^ 32 = deadline / 2 ^ 32

theorem expired_iff {start t : ℕ} {ttl : Word} (h : SameTurn (start + ttl.toNat * 100) t) :
    BitVec.ofNat 32 start + ttl * 100 ≤ BitVec.ofNat 32 t ↔ start + ttl.toNat * 100 ≤ t := by
  unfold SameTurn at h
  rw [BitVec.le_def, BitVec.toNat_add, BitVec.toNat_mul, BitVec.toNat_ofNat, BitVec.toNat_ofNat]
  change (start % 2 ^ 32 + ttl.toNat * 100 % 2 ^ 32) % 2 ^ 32 ≤ _ ↔ _
  omega

section Lifetime

variable {start time : ℕ} {ip : Ip4} {ttl : Word} {es before after : List (ℕ × Event)}
  {r : DnsDatagram}

/-- The answer is in the cache, or it was dropped when its time was over. -/
def Keeps (h : Hostname) (start time : ℕ) (ip : Ip4) (ttl : Word) (d : Directory) : Prop :=
  d.entry h = some (fresh (BitVec.ofNat 32 start) h ip ttl) ∨
    d.entry h = none ∧ start + ttl.toNat * 100 ≤ time

theorem keeps_step (hs : d.Sound) {e : ℕ × Event} (hk : Keeps h start time ip ttl d)
    (hspares : Spares h d e) (hturn : SameTurn (start + ttl.toNat * 100) e.1) (htime : e.1 ≤ time) :
    Keeps h start time ip ttl (d.step e) := by
  unfold Keeps at hk ⊢
  obtain hforgets | ⟨r, ip', ttl', hstores⟩ := step_cases hs e
  · obtain heq | ⟨-, hnone, x, hx, hold⟩ := hforgets.2 h
    · rwa [heq]
    · obtain hk | hk := hk
      · cases hx.symm.trans hk
        exact .inr ⟨hnone, ((expired_iff hturn).mp hold).trans htime⟩
      · exact .inr ⟨hnone, hk.2⟩
  · obtain ⟨hne, hroom⟩ := hspares r ip' ttl' hstores
    rwa [entry_congr (step_of_stores hstores).2,
      entry_store_of_ne hs hs.pending ip' _ hroom hne.symm]

theorem lookup_of_keeps (hk : Keeps h start time ip ttl d)
    (hturn : SameTurn (start + ttl.toNat * 100) time) :
    (d.directoryLookupCached (BitVec.ofNat 32 time) h).1 =
      if time < start + ttl.toNat * 100 then some ip else none := by
  unfold Keeps entry at hk
  unfold directoryLookupCached
  cases hf : d.findCacheSlot h with
  | none =>
    rw [hf] at hk
    simpa using hk
  | some i =>
    rw [hf] at hk
    simp only [map_some, some.injEq, reduceCtorEq, false_and, or_false] at hk
    simp only [hk, fresh, expired_iff hturn]
    split_ifs <;> first | rfl | omega

/-- An answer is found until its time is over and not afterwards, and only for its hostname. -/
theorem answer_kept_for_ttl (hh : h.length < directoryMaxHostname) (httl : ttl ≠ 0)
    (hpending : (run step {} before).pendingHostname = strncpy h directoryMaxHostname)
    (hstores : (run step {} before).Stores (start, .tick r) r ip ttl)
    (hafter : Along step (fun d e => Spares h d e ∧
      SameTurn (start + ttl.toNat * 100) e.1 ∧ e.1 ≤ time)
        ((run step {} before).step (start, .tick r)) after)
    (hturn : SameTurn (start + ttl.toNat * 100) time) :
    let d := run step ((run step {} before).step (start, .tick r)) after
    (d.directoryLookupCached (BitVec.ofNat 32 time) h).1 =
      (if time < start + ttl.toNat * 100 then some ip else none) ∧
        ∀ g i, d.findCacheSlot g = some i → (d.cache i).hostname = h → g = h := by
  intro d
  have hs := sound_run before
  rw [strncpy_of_short hh] at hpending
  have hstored : Keeps h start time ip ttl ((run step {} before).step (start, .tick r)) := by
    left
    rw [entry_congr (step_of_stores hstores).2, hpending, entry_store hs hh, if_neg httl]
  obtain ⟨hs', hk⟩ : d.Sound ∧ Keeps h start time ip ttl d :=
    hafter.run_invariant (I := fun d => d.Sound ∧ Keeps h start time ip ttl d)
      (fun d e hi he => ⟨sound_step hi.1 e, keeps_step hi.1 hi.2 he.1 he.2.1 he.2.2⟩)
      ⟨sound_step hs _, hstored⟩
  refine ⟨lookup_of_keeps hk hturn, fun g i hi hname => ?_⟩
  have hkey := key_of_find (findCacheSlot_eq hs' g ▸ hi)
  exact (tag_eq_some_iff.mp hkey).2.symm.trans hname

theorem proper_reply_kept :
    let d := run step ((run step {} (asking [97])).step (1, .tick properReply)) []
    (d.directoryLookupCached (BitVec.ofNat 32 6000) [97]).1 =
      (if 6000 < 1 + (60 : Word).toNat * 100 then some ⟨10, 0, 2, 99⟩ else none) ∧
        ∀ g i, d.findCacheSlot g = some i → (d.cache i).hostname = [97] → g = [97] :=
  answer_kept_for_ttl (by decide) (by decide) (by decide +kernel)
    ⟨rfl, by decide +kernel, by decide +kernel⟩ trivial rfl

end Lifetime

theorem long_hostname_not_found :
    let h := replicate 63 97
    let d := run step {} (asking h ++ [(1, .tick properReply)])
    (d.directoryLookupCached 2 h).1 = none ∧
      (d.directoryLookupCached 2 (h.take 62)).1 = some ⟨10, 0, 2, 99⟩ := by
  decide +kernel

end Directory

end Aevros
