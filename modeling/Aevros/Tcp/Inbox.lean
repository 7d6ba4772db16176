import Aevros.Library.Ring
import Aevros.Tcp.LockBox

/-! # Inbox, the receive buffers

Each slot has a ring of 4096 bytes, which counts as empty if it was last used under an earlier
generation. LockBox keeps the account of its bytes.
-/

namespace Aevros

structure Inbox where
  storage : ℕ → Byte := fun _ => 0
  writePos : ℕ := 0
  readPos : ℕ := 0
  count : ℕ := 0
  seenGeneration : Word := 0

namespace Inbox

def resetIfStale (gen : Word) (b : Inbox) : Inbox :=
  if b.seenGeneration ≠ gen then
    { b with writePos := 0, readPos := 0, count := 0, seenGeneration := gen }
  else b

def contents (b : Inbox) : List Byte :=
  (Ring.read lockboxMaxBuffered b.storage b.readPos b.count).1

end Inbox

section

variable (e : LockboxEntry) (b : Inbox)

def inboxDeposit (payload : List Byte) : Bool × LockboxEntry × Inbox :=
  let b := b.resetIfStale e.generation
  let r := lockboxDeposit e payload.length
  if !r.1 then (false, r.2, b)
  else
    let w := Ring.write lockboxMaxBuffered b.storage b.writePos payload
    (true, r.2, { b with
      storage := w.1, writePos := w.2, count := (b.count + payload.length) % 65536 })

def inboxRead (maxLen : ℕ) : List Byte × LockboxEntry × Inbox :=
  let b := b.resetIfStale e.generation
  let n := if maxLen < b.count then maxLen else b.count
  let r := Ring.read lockboxMaxBuffered b.storage b.readPos n
  (r.1, if 0 < n then lockboxConsume e n else e, { b with readPos := r.2, count := b.count - n })

def inboxAvailable : ℕ × Inbox :=
  ((b.resetIfStale e.generation).count, b.resetIfStale e.generation)

def unread : List Byte := (b.resetIfStale e.generation).contents

end

/-- The ring, once reset if stale, is in order and holds as many bytes as LockBox accounts for. -/
structure Synced (e : LockboxEntry) (b : Inbox) : Prop where
  readPos_lt : (b.resetIfStale e.generation).readPos < lockboxMaxBuffered
  writePos_eq : (b.resetIfStale e.generation).writePos =
    ((b.resetIfStale e.generation).readPos + e.bufferedBytes) % lockboxMaxBuffered
  count_eq : (b.resetIfStale e.generation).count = e.bufferedBytes
  buffered_le : e.bufferedBytes ≤ lockboxMaxBuffered

variable {e : LockboxEntry} {b : Inbox} {payload : List Byte}

@[simp] theorem Inbox.resetIfStale_idem (gen : Word) (b : Inbox) :
    (b.resetIfStale gen).resetIfStale gen = b.resetIfStale gen := by
  unfold Inbox.resetIfStale
  split_ifs <;> simp_all

@[simp] theorem Inbox.resetIfStale_seen (gen : Word) (b : Inbox) :
    (b.resetIfStale gen).seenGeneration = gen := by
  unfold Inbox.resetIfStale
  split_ifs <;> simp_all

theorem Inbox.resetIfStale_of_seen {gen : Word} (h : b.seenGeneration = gen) :
    b.resetIfStale gen = b := by
  simp [Inbox.resetIfStale, h]

@[simp] theorem unread_resetIfStale : unread e (b.resetIfStale e.generation) = unread e b := by
  simp [unread]

theorem synced_resetIfStale : Synced e (b.resetIfStale e.generation) ↔ Synced e b := by
  constructor
  · intro h
    exact ⟨by simpa using h.readPos_lt, by simpa using h.writePos_eq, by simpa using h.count_eq,
      h.buffered_le⟩
  · intro h
    exact ⟨by simpa using h.readPos_lt, by simpa using h.writePos_eq, by simpa using h.count_eq,
      h.buffered_le⟩

theorem synced_of_stale (h : b.seenGeneration ≠ e.generation) (hb : e.bufferedBytes = 0) :
    Synced e b ∧ unread e b = [] := by
  have hr : b.resetIfStale e.generation = _ := if_pos h
  refine ⟨⟨by simp [hr], by simp [hr, hb], by simp [hr, hb], by simp [hb]⟩, ?_⟩
  simp [unread, Inbox.contents, hr, Ring.read]

theorem unread_of_seen (h : b.seenGeneration = e.generation) : unread e b = b.contents := by
  rw [unread, Inbox.resetIfStale_of_seen h]

theorem Synced.of_seen (h : b.seenGeneration = e.generation) (hr : b.readPos < lockboxMaxBuffered)
    (hw : b.writePos = (b.readPos + e.bufferedBytes) % lockboxMaxBuffered)
    (hc : b.count = e.bufferedBytes) (hle : e.bufferedBytes ≤ lockboxMaxBuffered) :
    Synced e b := by
  rw [← Inbox.resetIfStale_of_seen h] at hr hw hc
  exact ⟨hr, hw, hc, hle⟩

theorem Synced.length_unread (h : Synced e b) : (unread e b).length = e.bufferedBytes := by
  rw [unread, Inbox.contents, Ring.length_read, h.count_eq]

theorem inboxDeposit_true_iff (payload : List Byte) : (inboxDeposit e b payload).1 = true ↔
      e.inUse = true ∧ e.bufferedBytes + payload.length ≤ lockboxMaxBuffered := by
  unfold inboxDeposit lockboxDeposit
  by_cases hu : e.inUse = true
  · by_cases h : lockboxMaxBuffered < e.bufferedBytes + payload.length
    · simp [h]
    · simp [hu, h, Nat.not_lt.mp h]
  · simp [hu]

theorem inboxDeposit_refused (h : (inboxDeposit e b payload).1 = false) :
    inboxDeposit e b payload = (false, e, b.resetIfStale e.generation) := by
  unfold inboxDeposit lockboxDeposit at h ⊢
  split_ifs at h ⊢ <;> simp_all

theorem inboxDeposit_accepted (h : (inboxDeposit e b payload).1 = true) :
    (inboxDeposit e b payload).2.1 =
      { e with bufferedBytes := e.bufferedBytes + payload.length } := by
  unfold inboxDeposit lockboxDeposit at h ⊢
  split_ifs at h ⊢ <;> simp_all

theorem inboxDeposit_seen (payload : List Byte) :
    (inboxDeposit e b payload).2.2.seenGeneration = e.generation := by
  unfold inboxDeposit
  dsimp only
  split_ifs <;> exact Inbox.resetIfStale_seen _ _

theorem Synced.deposit (h : Synced e b) (ha : (inboxDeposit e b payload).1 = true) :
    Synced (inboxDeposit e b payload).2.1 (inboxDeposit e b payload).2.2 ∧
      unread (inboxDeposit e b payload).2.1 (inboxDeposit e b payload).2.2 =
        unread e b ++ payload := by
  obtain ⟨hu, hle⟩ := (inboxDeposit_true_iff payload).mp ha
  have hle' : ¬ lockboxMaxBuffered < e.bufferedBytes + payload.length := by omega
  have hw : (b.resetIfStale e.generation).writePos < lockboxMaxBuffered := by
    rw [h.writePos_eq]; exact Nat.mod_lt _ (by norm_num)
  set r := b.resetIfStale e.generation with hr
  have hseen : r.seenGeneration = e.generation := by rw [Inbox.resetIfStale_seen]
  have he : inboxDeposit e b payload =
      (true, { e with bufferedBytes := e.bufferedBytes + payload.length }, { r with
        storage := (Ring.write lockboxMaxBuffered r.storage r.writePos payload).1
        writePos := (Ring.write lockboxMaxBuffered r.storage r.writePos payload).2
        count := (r.count + payload.length) % 65536 }) := by
    simp [inboxDeposit, lockboxDeposit, hu, hle', ← hr]
  have hcount : (r.count + payload.length) % 65536 = e.bufferedBytes + payload.length := by
    rw [h.count_eq]; exact Nat.mod_eq_of_lt (by simp only [lockboxMaxBuffered] at hle; omega)
  rw [he]
  constructor
  · refine .of_seen hseen h.readPos_lt ?_ hcount hle
    rw [Ring.write_snd _ hw, h.writePos_eq, Nat.mod_add_mod, Nat.add_assoc]
  · refine (unread_of_seen (by exact hseen)).trans ?_
    rw [Inbox.contents]
    rw [hcount, h.writePos_eq, Ring.read_write _ h.readPos_lt _ hle, unread, Inbox.contents,
      h.count_eq]

theorem lockboxConsume_of_le {n : ℕ} (h : n ≤ e.bufferedBytes) :
    (if 0 < n then lockboxConsume e n else e) =
      { e with bufferedBytes := e.bufferedBytes - n } := by
  unfold lockboxConsume
  rcases Nat.eq_zero_or_pos n with rfl | hn
  · simp
  · rw [if_pos hn, if_neg (by omega)]

theorem Synced.read (h : Synced e b) (maxLen : ℕ) :
    Synced (inboxRead e b maxLen).2.1 (inboxRead e b maxLen).2.2 ∧
      (inboxRead e b maxLen).1 = (unread e b).take maxLen ∧
      unread (inboxRead e b maxLen).2.1 (inboxRead e b maxLen).2.2 = (unread e b).drop maxLen := by
  set r := b.resetIfStale e.generation with hr
  have hseen : r.seenGeneration = e.generation := by rw [Inbox.resetIfStale_seen]
  obtain ⟨n, hn⟩ : ∃ n, n = if maxLen < r.count then maxLen else r.count := ⟨_, rfl⟩
  have hcount : r.count = e.bufferedBytes := h.count_eq
  have hle : n ≤ e.bufferedBytes := by rw [hn]; split_ifs <;> omega
  have hq : unread e b = (Ring.read lockboxMaxBuffered r.storage r.readPos e.bufferedBytes).1 := by
    rw [unread, Inbox.contents, hcount]
  -- no more than what is there is taken
  have hmin : min maxLen (unread e b).length = min n (unread e b).length := by
    rw [h.length_unread, hn]
    split_ifs <;> omega
  have he : inboxRead e b maxLen = ((Ring.read lockboxMaxBuffered r.storage r.readPos n).1,
      { e with bufferedBytes := e.bufferedBytes - n },
      { r with
        readPos := (r.readPos + n) % lockboxMaxBuffered
        count := e.bufferedBytes - n }) := by
    rw [← Ring.read_snd r.storage h.readPos_lt n, ← lockboxConsume_of_le hle, ← hcount, hn]
    rfl
  rw [he, List.take_eq_take_iff.mpr hmin, List.drop_eq_drop_iff.mpr hmin, hq]
  refine ⟨.of_seen hseen (Nat.mod_lt _ (by norm_num)) ?_ rfl ?_, ?_, ?_⟩
  · have hw := h.writePos_eq
    rw [Nat.mod_add_mod, hw, Nat.add_assoc, Nat.add_sub_cancel' hle]
  · have := h.buffered_le
    dsimp only
    omega
  · exact (Ring.take_read _ _ hle).symm
  · rw [Ring.drop_read _ h.readPos_lt hle]
    exact unread_of_seen (hseen)

end Aevros
