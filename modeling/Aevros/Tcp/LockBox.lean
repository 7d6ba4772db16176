import Aevros.Library.Runs
import Aevros.Library.Table
import Aevros.Wire.Segment

/-! # LockBox, the table of sockets

Every listener and every connection holds one of 64 slots. The first free one is taken, and its
generation counts how often it was claimed.
-/

namespace Aevros

open Function Fin

abbrev lockboxCapacity : ℕ := 64
abbrev lockboxMaxBuffered : ℕ := 4096
def lockboxMaxPerIp : ℕ := 8

/-- An index below `LOCKBOX_CAPACITY`; a lookup that returns the capacity itself is `none`. -/
abbrev Slot := Fin lockboxCapacity

inductive LockboxResult
  | rejectTableFull
  | rejectIpQuota
  | rejectAlreadyExists
  deriving DecidableEq

/-- An entry of the table together with the slot's generation. -/
structure LockboxEntry where
  localPort : Port := 0
  remoteIp : Ip4 := .zero
  remotePort : Port := 0
  protocol : Byte := 0
  bufferedBytes : ℕ := 0
  inUse : Bool := false
  generation : Word := 0
  deriving DecidableEq

abbrev LockBox := Slot → LockboxEntry

structure Tuple where
  localPort : Port
  remoteIp : Ip4
  remotePort : Port
  protocol : Byte
  deriving DecidableEq

section

variable (e : LockboxEntry)

def LockboxEntry.tuple : Tuple :=
  ⟨e.localPort, e.remoteIp, e.remotePort, e.protocol⟩

def Tuple.listener (port : Port) (protocol : Byte) : Tuple := ⟨port, .zero, 0, protocol⟩

section

variable (t : LockBox)

def countForIp (ip : Ip4) : ℕ :=
  Fin.countP fun i => (t i).inUse && (t i).remoteIp = ip

def lockboxFindConnection (u : Tuple) : Option Slot :=
  find? fun i => (t i).inUse && (t i).tuple = u

def lockboxFindListener (port : Port) (protocol : Byte) : Option Slot :=
  find? fun i => (t i).inUse && (t i).protocol = protocol && (t i).localPort = port

def lockboxFreeSlot : Option Slot := find? fun i => !(t i).inUse

def lockboxActiveCount : ℕ := Fin.countP fun i => (t i).inUse

/-- The entry written into a free slot; its generation goes up by one. -/
def LockboxEntry.claim (u : Tuple) : LockboxEntry :=
  ⟨u.localPort, u.remoteIp, u.remotePort, u.protocol, 0, true, e.generation + 1⟩

def lockboxClaim (u : Tuple) : Except LockboxResult (Slot × LockBox) :=
  if (lockboxFindConnection t u).isSome then .error .rejectAlreadyExists
  else if lockboxMaxPerIp ≤ countForIp t u.remoteIp then .error .rejectIpQuota
  else match lockboxFreeSlot t with
    | some i => .ok (i, update t i ((t i).claim u))
    | none => .error .rejectTableFull

def lockboxListen (port : Port) (protocol : Byte) : Except LockboxResult (Slot × LockBox) :=
  lockboxClaim t (.listener port protocol)

end

def lockboxDeposit (bytes : ℕ) : Bool × LockboxEntry :=
  if !e.inUse then (false, e)
  else if lockboxMaxBuffered < e.bufferedBytes + bytes then (false, e)
  else (true, { e with bufferedBytes := e.bufferedBytes + bytes })

def lockboxConsume (bytes : ℕ) : LockboxEntry :=
  if e.bufferedBytes < bytes then { e with bufferedBytes := 0 }
  else { e with bufferedBytes := e.bufferedBytes - bytes }

def lockboxRelease : LockboxEntry := { e with inUse := false }

@[simp] theorem LockboxEntry.claim_inUse (u : Tuple) : (e.claim u).inUse = true := rfl

@[simp] theorem LockboxEntry.claim_tuple (u : Tuple) : (e.claim u).tuple = u := rfl

end

variable {t : LockBox} {u : Tuple} {i : Slot}

theorem lockboxFindConnection_some (h : lockboxFindConnection t u = some i) :
    (t i).inUse = true ∧ (t i).tuple = u := by
  simpa using eq_true_of_find?_eq_some h

theorem lockboxFindConnection_none (h : lockboxFindConnection t u = none)
    (hi : (t i).inUse = true) : (t i).tuple ≠ u := by
  have := eq_false_of_find?_eq_none h i
  simpa [hi] using this

theorem lockboxClaim_ok {t' : LockBox} (h : lockboxClaim t u = .ok (i, t')) :
    lockboxFindConnection t u = none ∧ countForIp t u.remoteIp < lockboxMaxPerIp ∧
      lockboxFreeSlot t = some i ∧ t' = update t i ((t i).claim u) := by
  unfold lockboxClaim at h
  split_ifs at h with hf hq
  cases hs : lockboxFreeSlot t with
  | none => simp [hs] at h
  | some j =>
    simp only [hs] at h
    obtain ⟨rfl, rfl⟩ := h
    exact ⟨by simpa using hf, by omega, rfl, rfl⟩

/-- No two slots in use hold the same tuple. -/
def LockBox.Unique (t : LockBox) : Prop :=
  ∀ i j, (t i).inUse = true → (t j).inUse = true → (t i).tuple = (t j).tuple → i = j

namespace LockBox.Unique

theorem find_iff (h : t.Unique) :
    lockboxFindConnection t u = some i ↔ (t i).inUse = true ∧ (t i).tuple = u := by
  constructor
  · exact lockboxFindConnection_some
  · rintro ⟨hi, rfl⟩
    cases hf : lockboxFindConnection t (t i).tuple with
    | none => exact absurd rfl (lockboxFindConnection_none hf hi)
    | some j =>
      obtain ⟨hj, he⟩ := lockboxFindConnection_some hf
      rw [h j i hj hi he]

theorem update (h : t.Unique) {e : LockboxEntry}
    (he : e.inUse = true → (t i).inUse = true ∧ e.tuple = (t i).tuple) :
    LockBox.Unique (update t i e) := by
  have hold : ∀ l, (Function.update t i e l).inUse = true →
      (t l).inUse = true ∧ (Function.update t i e l).tuple = (t l).tuple := by
    intro l hl
    by_cases hli : l = i
    · subst hli
      simp only [update_self] at hl ⊢
      exact he hl
    · simpa [update_of_ne hli] using hl
  intro j k hj hk hjk
  obtain ⟨hj', hej⟩ := hold j hj
  obtain ⟨hk', hek⟩ := hold k hk
  exact h j k hj' hk' (hej.symm.trans (hjk.trans hek))

theorem new (h : t.Unique) {e : LockboxEntry} (hf : lockboxFindConnection t u = none)
    (he : e.tuple = u) : LockBox.Unique (Function.update t i e) := by
  intro j k hj hk hjk
  by_cases hji : j = i <;> by_cases hki : k = i
  · exact hji.trans hki.symm
  · subst hji
    simp only [Function.update_self, Function.update_of_ne hki] at hk hjk
    exact absurd (hjk.symm.trans he) (lockboxFindConnection_none hf hk)
  · subst hki
    simp only [Function.update_self, Function.update_of_ne hji] at hj hjk
    exact absurd (hjk.trans he) (lockboxFindConnection_none hf hj)
  · simp only [Function.update_of_ne hji, Function.update_of_ne hki] at hj hk hjk
    exact h j k hj hk hjk

end LockBox.Unique

/-- What every sequence of calls keeps: one slot a tuple, the quota and the buffer bound. -/
structure LockBox.Wf (t : LockBox) : Prop where
  unique : t.Unique
  quota : ∀ ip, countForIp t ip ≤ lockboxMaxPerIp
  buffered : ∀ i, (t i).bufferedBytes ≤ lockboxMaxBuffered

def LockBox.empty : LockBox := fun _ => {}

namespace LockBox.Wf

theorem empty : LockBox.Wf LockBox.empty where
  unique i j hi := by simp [LockBox.empty] at hi
  quota ip := by
    have h : countForIp LockBox.empty ip = 0 := by
      simp [countForIp, LockBox.empty]
    omega
  buffered i := by simp [LockBox.empty]

variable (h : t.Wf)

include h

theorem update {e : LockboxEntry} (hu : e.inUse = true → (t i).inUse = true)
    (ht : e.tuple = (t i).tuple) (hb : e.bufferedBytes ≤ lockboxMaxBuffered) :
    LockBox.Wf (Function.update t i e) where
  unique := h.unique.update fun he => ⟨hu he, ht⟩
  quota ip := by
    have hip : e.remoteIp = (t i).remoteIp := congrArg Tuple.remoteIp ht
    have hle := Table.countP_update_le_of_imp (fun e => e.inUse && e.remoteIp = ip) t i e
      (by simpa [hip] using fun h₁ h₂ => ⟨hu h₁, h₂⟩)
    exact le_trans hle (h.quota ip)
  buffered j := by
    by_cases hji : j = i
    · simpa [hji] using hb
    · simpa [hji] using h.buffered j

theorem claim {t' : LockBox} (hc : lockboxClaim t u = .ok (i, t')) : t'.Wf := by
  obtain ⟨hf, hq, hs, rfl⟩ := lockboxClaim_ok hc
  refine ⟨h.unique.new hf ((t i).claim_tuple u), ?_, ?_⟩
  · intro ip
    by_cases hip : u.remoteIp = ip
    · subst hip
      have := Table.countP_update_le (fun e => e.inUse && e.remoteIp = u.remoteIp) t i
        ((t i).claim u)
      simp only [countForIp] at hq ⊢
      omega
    · have hle := Table.countP_update_le_of_imp (fun e => e.inUse && e.remoteIp = ip) t i
        ((t i).claim u) (by simp [LockboxEntry.claim, hip])
      exact le_trans hle (h.quota ip)
  · intro j
    by_cases hji : j = i
    · simp [hji, LockboxEntry.claim]
    · simpa [hji] using h.buffered j

theorem deposit (i : Slot) (bytes : ℕ) :
    LockBox.Wf (Function.update t i (lockboxDeposit (t i) bytes).2) := by
  unfold lockboxDeposit
  split_ifs with hu hb
  · simpa using h
  · simpa using h
  · exact h.update (fun hi => hi) rfl (by simpa using hb)

theorem consume (i : Slot) (bytes : ℕ) :
    LockBox.Wf (Function.update t i (lockboxConsume (t i) bytes)) := by
  have := h.buffered i
  unfold lockboxConsume
  split_ifs
  · exact h.update (fun hi => hi) rfl (by simp)
  · exact h.update (fun hi => hi) rfl (by simp only; omega)

theorem release (i : Slot) : LockBox.Wf (Function.update t i (lockboxRelease (t i))) :=
  h.update (fun hi => by simp [lockboxRelease] at hi) rfl (h.buffered i)

end LockBox.Wf

/-- The slot that a connection id names once it passes `id < LOCKBOX_CAPACITY`. -/
def slotOf (id : Word) : Option Slot :=
  if h : id.toNat < lockboxCapacity then some ⟨id.toNat, h⟩ else none

inductive LockboxCall
  | claim (u : Tuple)
  | listen (port : Port) (protocol : Byte)
  | deposit (id : Word) (bytes : Port)
  | consume (id : Word) (bytes : Port)
  | release (id : Word)
  deriving DecidableEq

/-- The table after a call; a refused call and an id out of range change nothing. -/
def LockBox.call (t : LockBox) : LockboxCall → LockBox
  | .claim u => match lockboxClaim t u with
    | .ok r => r.2
    | .error _ => t
  | .listen port protocol => match lockboxListen t port protocol with
    | .ok r => r.2
    | .error _ => t
  | .deposit id bytes => match slotOf id with
    | some i => update t i (lockboxDeposit (t i) bytes.toNat).2
    | none => t
  | .consume id bytes => match slotOf id with
    | some i => update t i (lockboxConsume (t i) bytes.toNat)
    | none => t
  | .release id => match slotOf id with
    | some i => update t i (lockboxRelease (t i))
    | none => t

theorem LockBox.Wf.call (h : t.Wf) (a : LockboxCall) : (t.call a).Wf := by
  unfold LockBox.call
  cases a with
  | claim u =>
    dsimp only
    split
    · rename_i r hc; exact h.claim hc
    · exact h
  | listen port protocol =>
    dsimp only
    split
    · rename_i r hc; exact h.claim hc
    · exact h
  | deposit id bytes =>
    dsimp only
    split
    · exact h.deposit _ _
    · exact h
  | consume id bytes =>
    dsimp only
    split
    · exact h.consume _ _
    · exact h
  | release id =>
    dsimp only
    split
    · exact h.release _
    · exact h

/-- No two slots share a tuple, bounds are kept, and a lookup returns the slot of the tuple. -/
theorem lockbox_calls_unique_and_bounded (calls : List LockboxCall) :
    let t := Runs.run LockBox.call LockBox.empty calls
    (∀ i j, (t i).inUse = true → (t j).inUse = true → (t i).tuple = (t j).tuple → i = j) ∧
      (∀ ip, (Finset.univ.filter fun i => (t i).inUse = true ∧ (t i).remoteIp = ip).card ≤ 8) ∧
      (∀ i, (t i).bufferedBytes ≤ 4096) ∧
      ∀ u, (∀ i, lockboxFindConnection t u = some i ↔ (t i).inUse = true ∧ (t i).tuple = u) ∧
        (lockboxFindConnection t u = none ↔ ∀ i, ¬((t i).inUse = true ∧ (t i).tuple = u)) := by
  intro t
  have h : t.Wf := Runs.run_invariant (fun t a ht => ht.call a) LockBox.Wf.empty calls
  refine ⟨h.unique, ?_, h.buffered, fun u => ⟨fun i => h.unique.find_iff, ?_⟩⟩
  · intro ip
    have hq := h.quota ip
    rw [countForIp, Table.countP_eq_card] at hq
    simpa [lockboxMaxPerIp] using hq
  · simp [lockboxFindConnection]

end Aevros
