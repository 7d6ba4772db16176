import Aevros.Tcp.Inbox

/-! # Inboxes over all claims of their slots

What is read from an inbox is the beginning of what was deposited under the same claim, unless the
generation comes round while the ring holds bytes.
-/

namespace Aevros

open Runs Function List

/-- A slot with its ring, and what was accepted and read in its present claim. -/
structure Cell where
  box : LockboxEntry := {}
  ring : Inbox := {}
  accepted : List Byte := []
  taken : List Byte := []

namespace Cell

variable {c : Cell}

section

variable (c : Cell)

def claim (u : Tuple) : Cell := ⟨c.box.claim u, c.ring, [], []⟩

def release : Cell := { c with box := lockboxRelease c.box }

def deposit (payload : List Byte) : Cell :=
  let r := inboxDeposit c.box c.ring payload
  { c with
    box := r.2.1, ring := r.2.2
    accepted := if r.1 then c.accepted ++ payload else c.accepted }

def read (maxLen : ℕ) : Cell :=
  let r := inboxRead c.box c.ring maxLen
  { c with box := r.2.1, ring := r.2.2, taken := c.taken ++ r.1 }

def available : Cell := { c with ring := (inboxAvailable c.box c.ring).2 }

end

/-- What was read is the beginning of what was accepted, and the account is right. -/
structure InOrder (c : Cell) : Prop where
  fifo : c.taken <+: c.accepted
  count : c.ring.seenGeneration = c.box.generation →
    c.ring.count = c.box.bufferedBytes ∧ c.ring.count ≤ lockboxMaxBuffered

/-- The next claim brings the generation that the ring has seen, and the ring holds bytes. -/
def Clashes (c : Cell) : Prop :=
  c.ring.seenGeneration = c.box.generation + 1 ∧ c.ring.count ≠ 0

structure Inv (c : Cell) : Prop where
  synced : Synced c.box c.ring
  queue : c.accepted = c.taken ++ unread c.box c.ring
  readPos_lt : c.ring.readPos < lockboxMaxBuffered
  writePos_eq : c.ring.writePos = (c.ring.readPos + c.ring.count) % lockboxMaxBuffered

theorem Inv.inOrder (h : c.Inv) : c.InOrder := by
  refine ⟨⟨_, h.queue.symm⟩, fun hs => ?_⟩
  have hcount := h.synced.count_eq
  rw [Inbox.resetIfStale_of_seen hs] at hcount
  exact ⟨hcount, hcount ▸ h.synced.buffered_le⟩

theorem Inv.of_seen (hs : Synced c.box c.ring) (hq : c.accepted = c.taken ++ unread c.box c.ring)
    (hseen : c.ring.seenGeneration = c.box.generation) : c.Inv := by
  have hr := hs.readPos_lt
  have hw := hs.writePos_eq
  have hc := hs.count_eq
  rw [Inbox.resetIfStale_of_seen hseen] at hr hw hc
  exact ⟨hs, hq, hr, hc ▸ hw⟩

theorem Inv.claim (h : c.Inv) (hc : ¬ c.Clashes) (u : Tuple) : (c.claim u).Inv := by
  by_cases hseen : c.ring.seenGeneration = c.box.generation + 1
  · have hzero : c.ring.count = 0 := by
      by_contra hne
      exact hc ⟨hseen, hne⟩
    have hw := h.writePos_eq
    rw [hzero] at hw
    have hs : Synced (c.box.claim u) c.ring :=
      .of_seen hseen h.readPos_lt hw hzero (Nat.zero_le _)
    refine .of_seen hs ?_ hseen
    have hnil : unread (c.box.claim u) c.ring = [] :=
      eq_nil_of_length_eq_zero hs.length_unread
    exact hnil.symm
  · obtain ⟨hs, hnil⟩ := synced_of_stale (e := c.box.claim u) hseen rfl
    exact ⟨hs, hnil.symm, h.readPos_lt, h.writePos_eq⟩

theorem not_clashes_of_inOrder {u : Tuple} (h : (c.claim u).InOrder) : ¬ c.Clashes :=
  fun ⟨hseen, hne⟩ => hne (h.count hseen).1

theorem Inv.release (h : c.Inv) : c.release.Inv := by
  refine ⟨⟨h.synced.readPos_lt, h.synced.writePos_eq, h.synced.count_eq, h.synced.buffered_le⟩, ?_,
    h.readPos_lt, h.writePos_eq⟩
  exact h.queue

theorem Inv.available (h : c.Inv) : c.available.Inv := by
  refine .of_seen (synced_resetIfStale.mpr h.synced) ?_ (Inbox.resetIfStale_seen _ _)
  exact h.queue.trans (congrArg _ unread_resetIfStale.symm)

theorem Inv.deposit (h : c.Inv) (payload : List Byte) : (c.deposit payload).Inv := by
  cases ha : (inboxDeposit c.box c.ring payload).1 with
  | true =>
    obtain ⟨hs, hunread⟩ := h.synced.deposit ha
    refine .of_seen hs ?_ ?_
    · show (if (inboxDeposit c.box c.ring payload).1 then _ else _) = _
      rw [ha, h.queue, List.append_assoc]
      exact congrArg _ hunread.symm
    · refine (inboxDeposit_seen payload).trans ?_
      exact (congrArg LockboxEntry.generation (inboxDeposit_accepted ha)).symm
  | false =>
    have heq : c.deposit payload = c.available := by
      simp [Cell.deposit, inboxDeposit_refused ha, Cell.available, inboxAvailable]
    rw [heq]
    exact h.available

theorem read_generation (e : LockboxEntry) (b : Inbox) (maxLen : ℕ) :
    (inboxRead e b maxLen).2.2.seenGeneration = (inboxRead e b maxLen).2.1.generation := by
  refine (Inbox.resetIfStale_seen e.generation b).trans ?_
  unfold inboxRead lockboxConsume
  dsimp only
  split_ifs <;> rfl

theorem Inv.read (h : c.Inv) (maxLen : ℕ) : (c.read maxLen).Inv := by
  obtain ⟨hs, htake, hdrop⟩ := h.synced.read maxLen
  refine .of_seen hs ?_ (read_generation _ _ _)
  show c.accepted = (c.taken ++ (inboxRead c.box c.ring maxLen).1) ++ unread _ _
  rw [List.append_assoc, h.queue]
  refine congrArg (c.taken ++ ·) ?_
  rw [htake]
  exact (List.take_append_drop maxLen _).symm.trans (congrArg _ hdrop.symm)

end Cell

abbrev Letters := Slot → Cell

inductive LetterCall
  | claim (u : Tuple)
  | release (id : Word)
  | deposit (id : Word) (payload : List Byte)
  | read (id : Word) (maxLen : ℕ)
  | available (id : Word)
  deriving DecidableEq

namespace Letters

variable {s : Letters}

section

variable (s : Letters)

def box : LockBox := fun i => (s i).box

def modify (id : Word) (f : Cell → Cell) : Letters :=
  match slotOf id with
  | some i => update s i (f (s i))
  | none => s

def step : LetterCall → Letters
  | .claim u => match lockboxClaim s.box u with
    | .ok (i, _) => update s i ((s i).claim u)
    | .error _ => s
  | .release id => s.modify id Cell.release
  | .deposit id payload => s.modify id fun c => c.deposit payload
  | .read id maxLen => s.modify id fun c => c.read maxLen
  | .available id => s.modify id Cell.available

/-- A claim does not meet a ring that holds bytes of the generation that it brings. -/
def Safe : LetterCall → Prop
  | .claim u => ∀ i box, lockboxClaim s.box u = .ok (i, box) → ¬ (s i).Clashes
  | _ => True

end

theorem step_claim {u : Tuple} {r : Slot × LockBox} (h : lockboxClaim s.box u = .ok r) :
    s.step (.claim u) = update s r.1 ((s r.1).claim u) := by
  unfold step
  dsimp only
  rw [h]

theorem inv_update (h : ∀ i, (s i).Inv) {i : Slot} {c : Cell} (hc : c.Inv) (j : Slot) :
    (update s i c j).Inv := by
  rw [update_apply]
  split_ifs
  · exact hc
  · exact h j

theorem inv_modify (h : ∀ i, (s i).Inv) (id : Word) {f : Cell → Cell}
    (hf : ∀ c : Cell, c.Inv → (f c).Inv) (j : Slot) : (s.modify id f j).Inv := by
  unfold modify
  cases slotOf id with
  | some i => exact inv_update h (hf _ (h _)) j
  | none => exact h j

theorem inv_step (h : ∀ i, (s i).Inv) {c : LetterCall} (hc : s.Safe c) (j : Slot) :
    (s.step c j).Inv := by
  cases c with
  | claim u =>
    cases hok : lockboxClaim s.box u with
    | ok r =>
      rw [step_claim hok]
      exact inv_update h ((h r.1).claim (hc r.1 r.2 hok) u) j
    | error e =>
      unfold step
      dsimp only
      rw [hok]
      exact h j
  | release id => exact inv_modify h id (fun _ hc => hc.release) j
  | deposit id payload => exact inv_modify h id (fun _ hc => hc.deposit payload) j
  | read id maxLen => exact inv_modify h id (fun _ hc => hc.read maxLen) j
  | available id => exact inv_modify h id (fun _ hc => hc.available) j

theorem safe_of_inOrder {c : LetterCall} (h : ∀ i, (s.step c i).InOrder) : s.Safe c := by
  cases c with
  | claim u =>
    intro i box hok
    have hi := h i
    rw [step_claim hok, update_self] at hi
    exact Cell.not_clashes_of_inOrder hi
  | _ => trivial

theorem inv_boot (i : Slot) : Cell.Inv ((fun _ => {} : Letters) i) :=
  .of_seen (.of_seen rfl (Nat.zero_lt_succ _) rfl rfl (Nat.zero_le _)) rfl rfl

/-- The inboxes are in order exactly if no claim meets a ring with bytes of its generation. -/
theorem inOrder_iff_safe (cs : List LetterCall) :
    Along step (fun s c => ∀ i, (s.step c i).InOrder) (fun _ => {}) cs ↔
      Along step Safe (fun _ => {}) cs := by
  refine along_congr (I := fun s : Letters => ∀ i, (s i).Inv) (L := fun _ _ => True)
    (fun s c h _ hc => inv_step h hc) (fun s c h _ => ?_) inv_boot
    (along_of_forall (p := fun _ => True) fun _ _ => trivial)
  constructor
  · exact safe_of_inOrder
  · exact fun hc i => (inv_step h hc i).inOrder

theorem lockboxClaim_of_empty {t : LockBox} (h : ∀ i, (t i).inUse = false) (u : Tuple) :
    lockboxClaim t u = .ok (0, update t 0 ((t 0).claim u)) := by
  have hfind : lockboxFindConnection t u = none := by simp [lockboxFindConnection, h]
  have hcount : countForIp t u.remoteIp = 0 := by
    rw [countForIp]
    simp [h]
  have hfree : lockboxFreeSlot t = some 0 := by
    rw [lockboxFreeSlot, Fin.find?_eq_some_iff]
    exact ⟨by simp [h], fun j hj => absurd hj (Fin.not_lt_zero j)⟩
  unfold lockboxClaim
  rw [hfind, hcount, hfree]
  rfl

theorem zero_lt_capacity : 0 < lockboxCapacity := by decide

section

variable (c : Cell)

def alone : Letters := update (fun _ => {}) ⟨0, zero_lt_capacity⟩ c

@[simp] theorem alone_zero : alone c 0 = c := update_self _ _ _

theorem update_alone (c d : Cell) : update (alone c) 0 d = alone d :=
  update_idem _ _ _

variable (u : Tuple)

def handover : List LetterCall := [.release 0, .claim u]

theorem step_claim_alone {c : Cell} (hc : c.box.inUse = false) (u : Tuple) :
    (alone c).step (.claim u) = alone (c.claim u) := by
  have hempty : ∀ i, ((alone c).box i).inUse = false := by
    intro i
    rw [box, alone, update_apply]
    split_ifs
    · exact hc
    · rfl
  rw [step_claim (lockboxClaim_of_empty hempty u), alone_zero, update_alone]

theorem run_handover : run step (alone c) (handover u) = alone (c.claim u) := by
  have hrelease : (alone c).step (.release 0) = alone c.release := update_alone c c.release
  rw [handover, run_cons, hrelease, run_cons, step_claim_alone rfl]
  rfl

theorem run_handovers (n : ℕ) : run step (alone c) (replicate (n + 1) (handover u)).flatten =
      alone { c.claim u with box := { c.box.claim u with
        generation := c.box.generation + BitVec.ofNat 32 (n + 1) } } := by
  induction n generalizing c with
  | zero => exact run_handover c u
  | succ n ih =>
    have hgen : c.box.generation + 1 + BitVec.ofNat 32 (n + 1) =
        c.box.generation + BitVec.ofNat 32 (n + 1 + 1) := by
      rw [Nat.add_comm (n + 1) 1, BitVec.ofNat_add 1, ← BitVec.add_assoc]
      rfl
    rw [List.replicate_succ, List.flatten_cons, run_append, run_handover, ih, ← hgen]
    rfl

theorem run_handovers_round {n : ℕ} (hn : n = 2 ^ 32) :
    run step (alone c) (List.replicate n (handover u)).flatten =
      alone { c.claim u with box := { c.box.claim u with generation := c.box.generation } } := by
  obtain ⟨m, rfl⟩ := Nat.exists_eq_add_of_lt (show 0 < n by omega)
  rw [Nat.zero_add] at hn ⊢
  have hround : c.box.generation + BitVec.ofNat 32 (m + 1) = c.box.generation := by
    rw [hn]
    exact BitVec.add_zero _
  rw [run_handovers, hround]

end

def firstByte (u : Tuple) : Cell := (Cell.claim {} u).deposit [0x2a]

theorem run_firstByte (u : Tuple) :
    run step (fun _ => {}) [.claim u, .deposit 0 [0x2a]] = alone (firstByte u) := by
  have hboot : (fun _ => {} : Letters) = alone {} := (update_eq_self 0 _).symm
  rw [hboot, run_cons, step_claim_alone rfl]
  exact update_alone _ _

theorem byte_of_earlier_claim_read :
    let u : Tuple := ⟨80, ⟨10, 0, 2, 2⟩, 1001, 6⟩
    let s := run step (fun _ => {}) [.claim u, .deposit 0 [0x2a]]
    let t := run step s (replicate (2 ^ 32) (handover u)).flatten
    (t 0).accepted = [] ∧ (t.step (.read 0 1) 0).taken = [0x2a] ∧
      ¬ (t.step (.read 0 1) 0).InOrder := by
  intro u s
  rw [show s = alone (firstByte u) from run_firstByte u, run_handovers_round _ u rfl]
  set c : Cell := { (firstByte u).claim u with
    box := { (firstByte u).box.claim u with generation := (firstByte u).box.generation } }
  have htaken : (c.read 1).taken = [0x2a] := by decide +kernel
  refine ⟨rfl, htaken, fun h => ?_⟩
  have hnil := h.fifo
  exact absurd hnil (by decide)

end Letters

end Aevros
