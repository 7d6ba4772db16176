import Aevros.Library.Ring
import Aevros.Library.Runs
import Aevros.Office.FrontDesk

/-! # What the driver does with its frames

The RTL8139 loses no frame without counting it. The e1000 takes equal head and tail for an empty
ring, and with sixteen frames it sees none.
-/

namespace Aevros

open Function List

/-- The e1000, with its tail register and the descriptors that it has to finish, oldest first. -/
structure E1000Card where
  driver : FrontDesk := {}
  tdt : Fin ringLen := 0
  unfinished : List (Fin ringLen) := []

inductive E1000Event where
  | send (frame : Frame)
  | irq
  | complete

namespace E1000Card

variable (c : E1000Card)

def complete : E1000Card :=
  match c.unfinished with
  | [] => c
  | d :: ds =>
    if d = c.tdt then c
    else
      let ring := update c.driver.txRing d ((c.driver.txRing d).1, true)
      { c with driver := { c.driver with txRing := ring }, unfinished := ds }

def step : E1000Event → E1000Card
  | .send frame =>
    let r := c.driver.e1000Send frame
    if r.1 then ⟨r.2, r.2.txTail, c.unfinished ++ [c.driver.txTail]⟩ else { c with driver := r.2 }
  | .irq => { c with driver := c.driver.reclaimTx c.driver.txInflight }
  | .complete => c.complete

def written : E1000Event → Option (Fin ringLen)
  | .send frame => if (c.driver.e1000Send frame).1 then some c.driver.txTail else none
  | _ => none

/-- The indices agree with the counter, and the ring does not look empty to the card. -/
def Visible : Prop :=
  (c.driver.txTail - c.driver.txClean).val = c.driver.txInflight % ringLen ∧
    ∀ d ∈ c.unfinished.head?, c.tdt ≠ d

/-- A frame of a proper length is sent only if the card has not fifteen others to finish. -/
def Roomy : E1000Event → Prop
  | .send frame => frame.length ≠ 0 ∧ frame.length ≤ bufLen → c.unfinished.length ≠ 15
  | _ => True

end E1000Card

namespace FrontDesk

def slot (i : ℕ) : Fin ringLen := ⟨i % ringLen, Nat.mod_lt i (by decide)⟩

/-- The frames from the `c`-th to the `t`-th are in flight, and those before the `f`-th finished. -/
structure Rings (s : FrontDesk) (c f t : ℕ) (unf : List (Fin ringLen)) : Prop where
  clean : s.txClean = slot c
  tail : s.txTail = slot t
  inflight : s.txInflight = t - c
  order : c ≤ f ∧ f ≤ t ∧ t ≤ c + ringLen
  unf_eq : unf = (range' f (t - f)).map slot
  done : ∀ i, c ≤ i → i < t → ((s.txRing (slot i)).2 = true ↔ i < f)

variable {s : FrontDesk} {c f t i j : ℕ} {unf : List (Fin ringLen)}

theorem slot_succ : slot i + 1 = slot (i + 1) := Fin.ext (Nat.mod_add_mod i ringLen 1)

theorem slot_ne (hij : i < j) (hlt : j < i + ringLen) : slot i ≠ slot j := by
  intro heq
  have hval : i % ringLen = j % ringLen := congrArg Fin.val heq
  unfold ringLen at *
  omega

namespace Rings

theorem reclaimTx (h : s.Rings c f t unf) {n : ℕ} (hn : f - c ≤ n) :
    (s.reclaimTx n).Rings f f t unf := by
  induction n generalizing s c with
  | zero =>
    obtain rfl : c = f := by have := h.order; omega
    exact h
  | succ n ih =>
    obtain ⟨hclean, htail, hinflight, horder, hunf, hdone⟩ := id h
    rw [FrontDesk.reclaimTx, hclean]
    by_cases hcf : c < f
    · have hpos : 0 < s.txInflight := by omega
      rw [(hdone c le_rfl (by omega)).mpr hcf, decide_eq_true hpos]
      refine ih (c := c + 1) ⟨slot_succ, htail, ?_, by omega, hunf, fun i hi hit => ?_⟩ (by omega)
      · dsimp only
        omega
      · dsimp only
        rw [update_of_ne (slot_ne hi (by omega)).symm, hdone i (by omega) hit]
    · obtain rfl : c = f := by omega
      rw [if_neg fun hmore => ?_]
      · exact h
      · simp only [Bool.and_eq_true, decide_eq_true_eq] at hmore
        exact lt_irrefl c ((hdone c le_rfl (by omega)).mp hmore.2)

theorem reclaimed (h : s.Rings c f t unf) : (s.reclaimTx s.txInflight).Rings f f t unf :=
  h.reclaimTx (by have := h.inflight; have := h.order; omega)

theorem complete {d : Fin ringLen} (h : s.Rings c f t (d :: unf)) :
    Rings { s with txRing := update s.txRing d ((s.txRing d).1, true) } c (f + 1) t unf := by
  obtain ⟨hclean, htail, hinflight, horder, hunf, hdone⟩ := h
  obtain ⟨n, hn⟩ : ∃ n, t - f = n + 1 := by
    refine Nat.exists_eq_succ_of_ne_zero fun hzero => ?_
    rw [hzero] at hunf
    cases hunf
  rw [hn, range'_succ, map_cons, cons.injEq] at hunf
  refine ⟨hclean, htail, hinflight, by omega, ?_, fun i hi hit => ?_⟩
  · rw [hunf.2, Nat.sub_add_eq, hn]
    rfl
  · dsimp only
    rw [hunf.1]
    obtain hif | rfl | hfi := lt_trichotomy i f
    · rw [update_of_ne (slot_ne hif (by omega)), hdone i hi hit]
      omega
    · simp
    · rw [update_of_ne (slot_ne hfi (by omega)).symm, hdone i hi hit]
      omega

theorem push (h : s.Rings f f t unf) (hlt : s.txInflight < ringLen) (data : Frame) :
    slot t ∉ unf ∧ Rings { s with
      txRing := update s.txRing s.txTail (data, false)
      txTail := s.txTail + 1
      txInflight := s.txInflight + 1 } f f (t + 1) (unf ++ [slot t]) := by
  obtain ⟨hclean, htail, hinflight, horder, hunf, hdone⟩ := h
  refine ⟨?_, hclean, htail ▸ slot_succ, ?_, by omega, ?_, fun i hi hit => ?_⟩
  · rw [hunf, mem_map]
    rintro ⟨i, hi, heq⟩
    rw [mem_range'_1] at hi
    exact slot_ne (by omega) (by omega) heq
  · dsimp only
    omega
  · rw [Nat.sub_add_comm horder.2.1, range'_concat, hunf, map_append, Nat.one_mul,
      Nat.add_sub_cancel' horder.2.1]
    rfl
  · dsimp only
    rw [htail]
    obtain rfl | hif := eq_or_ne i t
    · simp [horder.2.1]
    · rw [update_of_ne (slot_ne (by omega) (by omega)), hdone i hi (by omega)]

theorem visible (h : s.Rings c f t unf) (hlt : unf.length < ringLen) :
    (s.txTail - s.txClean).val = s.txInflight % ringLen ∧ ∀ d ∈ unf.head?, s.txTail ≠ d := by
  obtain ⟨hclean, htail, hinflight, horder, rfl, -⟩ := h
  rw [length_map, length_range'] at hlt
  rw [hclean, htail, hinflight]
  constructor
  · rw [Fin.sub_def]
    change (ringLen - c % ringLen + t % ringLen) % ringLen = _
    unfold ringLen at *
    omega
  · cases hn : t - f with
    | zero => simp
    | succ n =>
      rintro d ⟨⟩
      exact (slot_ne (by omega) (by omega)).symm

end Rings

end FrontDesk

namespace E1000Card

variable {c : E1000Card}

/-- The descriptors are used in turn, and one of them at least is not with the card. -/
def Sound (c : E1000Card) : Prop :=
  (∃ n f t, c.driver.Rings n f t c.unfinished) ∧ c.unfinished.length < ringLen ∧
    c.tdt = c.driver.txTail

theorem Sound.visible (h : c.Sound) : c.Visible := by
  obtain ⟨⟨n, f, t, h⟩, hlt, htdt⟩ := h
  rw [Visible, htdt]
  exact h.visible hlt

theorem Sound.send (h : c.Sound) (frame : Frame) (hroom : c.Roomy (.send frame)) :
    (∀ d ∈ c.written (.send frame), d ∉ c.unfinished) ∧ (c.step (.send frame)).Sound := by
  obtain ⟨⟨n, f, t, h⟩, hlt, htdt⟩ := id h
  have hrings := h.reclaimed
  by_cases hlen : frame.length = 0 ∨ bufLen < frame.length
  · simp only [written, step, FrontDesk.e1000Send, hlen, if_true]
    exact ⟨by simp, ⟨n, f, t, h⟩, hlt, htdt⟩
  · have hroom : c.unfinished.length ≠ 15 := hroom (by simpa using hlen)
    have hfull : (c.driver.reclaimTx c.driver.txInflight).txInflight < ringLen := by
      rw [hrings.inflight]
      rwa [h.unf_eq, length_map, length_range'] at hlt
    obtain ⟨hnot, hpush⟩ := hrings.push hfull frame
    simp only [written, step, FrontDesk.e1000Send, hlen, hfull.ne, h.tail, if_false, if_true]
    refine ⟨by simpa using hnot, ⟨f, f, t + 1, hpush⟩, ?_, rfl⟩
    rw [length_append, length_singleton]
    unfold ringLen at *
    omega

theorem Sound.complete (h : c.Sound) : c.complete.Sound := by
  unfold E1000Card.complete
  split
  · exact h
  · rename_i d ds hds
    split_ifs with hd
    · exact h
    · obtain ⟨⟨n, f, t, h⟩, hlt, htdt⟩ := h
      rw [hds] at h hlt
      exact ⟨⟨n, _, t, h.complete⟩, Nat.lt_of_succ_lt hlt, htdt⟩

theorem Sound.irq (h : c.Sound) : (c.step .irq).Sound := by
  obtain ⟨⟨n, f, t, h⟩, hlt, htdt⟩ := h
  refine ⟨⟨f, f, t, h.reclaimed⟩, hlt, htdt.trans ?_⟩
  exact h.tail.trans h.reclaimed.tail.symm

/-- With room in the ring the card sees every frame, and none is overwritten. -/
theorem frames_seen (es : List E1000Event) (h : Runs.Along step Roomy {} es) :
    Runs.Along step (fun c e => (∀ d ∈ c.written e, d ∉ c.unfinished) ∧ (c.step e).Visible)
      {} es := by
  refine h.imp (I := Sound) ?_ ?_
  · intro c e hc hroom
    have hnext : (∀ d ∈ c.written e, d ∉ c.unfinished) ∧ (c.step e).Sound := by
      cases e with
      | send frame => exact hc.send frame hroom
      | irq => exact ⟨by simp [written], hc.irq⟩
      | complete => exact ⟨by simp [written], hc.complete⟩
    exact ⟨hnext.2, hnext.1, hnext.2.visible⟩
  · exact ⟨⟨0, 0, 0, by constructor <;> simp [FrontDesk.slot]⟩, by decide, rfl⟩

theorem two_frames_seen : (Runs.run step {} [.send [0], .complete, .irq, .send [0]]).Visible :=
  (frames_seen [.send [0], .complete, .irq, .send [0]]
    ⟨fun _ => Nat.zero_ne_add_one _, trivial, trivial, fun _ => Nat.zero_ne_add_one _,
      trivial⟩).2.2.2.1.2

theorem full_ring_looks_empty :
    let c := Runs.run step {} (replicate 16 (.send [0]))
    c.driver.txInflight = 16 ∧ c.unfinished.length = 16 ∧
      c.unfinished.head? = some c.tdt ∧ ¬c.Visible := by
  refine ⟨by decide, by decide, by decide, ?_⟩
  exact fun h => h.2 _ (by decide) rfl

end E1000Card

structure TxLog where
  desk : FrontDesk
  accepted : Multiset Frame := 0
  completed : Multiset Frame := 0
  dropped : Multiset Frame := 0
  refused : ℕ := 0

inductive TxEvent where
  | send (tsd : Fin 4 → Word) (data : Frame)
  | irq (tsd : Fin 4 → Word)

namespace FrontDesk

/-- The frames in the ring, from the head on. -/
def queue (f : FrontDesk) : List Frame := (Ring.read txQueueLen f.txq f.txqHead f.txqCount).1

/-- The head is a slot of the ring, and there are no more frames than slots. -/
def InRing (f : FrontDesk) : Prop := f.txqHead < txQueueLen ∧ f.txqCount ≤ txQueueLen

/-- What becomes of the descriptors when they are given a frame. -/
def hand (f : FrontDesk) (frame : Frame) : FrontDesk :=
  f.freeDesc.elim f (f.fill frame)

def busy (b : Fin 4 → Option Frame) : Multiset Frame := ∑ d, ↑(b d).toList

variable {f : FrontDesk} {d : Fin 4}

theorem busy_update (b : Fin 4 → Option Frame) (d : Fin 4) (o : Option Frame) :
    busy (update b d o) + ↑(b d).toList = busy b + ↑o.toList := by
  have hsum : ∀ b, busy b = ↑(b d).toList + ∑ e ∈ Finset.univ.erase d, ↑(b e).toList :=
    fun b => (Finset.add_sum_erase _ _ (Finset.mem_univ d)).symm
  have hrest : ∑ e ∈ Finset.univ.erase d, (↑(update b d o e).toList : Multiset Frame) =
      ∑ e ∈ Finset.univ.erase d, ↑(b e).toList :=
    Finset.sum_congr rfl fun e he => by rw [update_of_ne (Finset.ne_of_mem_erase he)]
  rw [hsum (update b d o), hsum b, hrest, update_self]
  abel

theorem busy_of_none {frame : Frame} {b : Fin 4 → Option Frame} (h : b d = none) :
    busy (update b d (some frame)) = frame ::ₘ busy b := by
  have := busy_update b d (some frame)
  rw [h] at this
  simpa [add_comm] using this

theorem busy_of_some {frame : Frame} {b : Fin 4 → Option Frame} (h : b d = some frame) :
    busy b = frame ::ₘ busy (update b d none) := by
  have := busy_update b d none
  rw [h] at this
  simpa [add_comm] using this.symm

@[simp] theorem txBusy_requeue (f : FrontDesk) (frame : Frame) :
    (f.requeue frame).txBusy = f.txBusy := rfl

theorem queue_enqueue (h : f.InRing) (hlt : f.txqCount < txQueueLen) (data : Frame) :
    (f.enqueue data).queue = f.queue ++ [data] := Ring.read_write f.txq h.1 [data] hlt

theorem queue_handOver (hpos : 0 < f.txqCount) (d : Fin 4) :
    f.queue = f.txq f.txqHead :: (f.handOver d).queue := by
  obtain ⟨n, hn⟩ := Nat.exists_eq_add_one.mpr hpos
  simp only [queue, handOver, fill, hn, Ring.read, Nat.add_sub_cancel]

/-- What `handOver` keeps is kept by the loop. -/
theorem load_preserves {P : FrontDesk → Prop}
    (hstep : ∀ f d, P f → 0 < f.txqCount → f.txBusy d = none → P (f.handOver d)) {n : ℕ}
    (h : P f) (hn : n ≤ f.txqCount) : P (load n f) := by
  induction n generalizing f with
  | zero => exact h
  | succ n ih =>
    rw [load]
    split
    · exact h
    · rename_i d hd
      have hnone : f.txBusy d = none := by simpa using find?_some hd
      exact ih (hstep f d h (by omega) hnone) (Nat.le_sub_one_of_lt hn)

theorem frontdeskSend_cases (hf : f.backendE1000 = false ∧ f.present = true) (data : Frame) :
    (data.length = 0 ∨ txFrameMax < data.length) ∧ frontdeskSend f data = (false, f) ∨
      ¬ (data.length = 0 ∨ txFrameMax < data.length) ∧
        (frontdeskSend f data = (false, { f with txDrops := f.txDrops + 1 }) ∨
          f.txqCount ≠ txQueueLen ∧ frontdeskSend f data = (true, (f.enqueue data).txPump)) := by
  unfold frontdeskSend
  rw [hf.1, hf.2, if_neg Bool.false_ne_true]
  by_cases hlen : data.length = 0 ∨ txFrameMax < data.length
  · exact .inl ⟨hlen, if_pos (.inr hlen)⟩
  · rw [if_neg (by simpa using hlen)]
    split_ifs with hfull
    · exact .inr ⟨hlen, .inl rfl⟩
    · exact .inr ⟨hlen, .inr ⟨hfull, rfl⟩⟩

end FrontDesk

namespace TxLog

def reap (l : TxLog) (d : Fin 4) : TxLog :=
  let f := l.desk
  let l := { l with desk := f.reap d }
  match f.txBusy d with
  | none => l
  | some frame =>
    if f.tsd d &&& tsdFinishedBits = 0 then l
    else if f.tsd d &&& tsdTok ≠ 0 then { l with completed := frame ::ₘ l.completed }
    else if f.txqCount < txQueueLen then l
    else { l with dropped := frame ::ₘ l.dropped }

def txPump (l : TxLog) : TxLog := { (finRange 4).foldl reap l with desk := l.desk.txPump }

/-- A frame of a proper length that is not taken is `refused`. -/
def send (l : TxLog) (data : Frame) : TxLog :=
  let r := frontdeskSend l.desk data
  if r.1 then
    let l := { l with desk := l.desk.enqueue data, accepted := data ::ₘ l.accepted }
    { l.txPump with desk := r.2 }
  else if data.length = 0 ∨ txFrameMax < data.length then { l with desk := r.2 }
  else { l with desk := r.2, refused := l.refused + 1 }

/-- The card shows `tsd` as the status of its descriptors. -/
def shown (l : TxLog) (tsd : Fin 4 → Word) : TxLog := { l with desk := { l.desk with tsd := tsd } }

def step (l : TxLog) : TxEvent → TxLog
  | .send tsd data => (l.shown tsd).send data
  | .irq tsd => (l.shown tsd).txPump

/-- Every frame taken is in one place, and the losses are counted. -/
structure Conserved (l : TxLog) : Prop where
  once : l.accepted = ↑l.desk.queue + FrontDesk.busy l.desk.txBusy + l.completed + l.dropped
  drops : l.desk.txDrops = BitVec.ofNat 32 (l.dropped.card + l.refused)
  ring : l.desk.InRing
  card : l.desk.backendE1000 = false ∧ l.desk.present = true

variable {l : TxLog}

theorem desk_reap (l : TxLog) (d : Fin 4) : l.desk.reap d = (l.reap d).desk := by
  unfold reap
  dsimp only
  split
  · rfl
  · split_ifs <;> rfl

theorem counted {w : Word} {n : ℕ} (h : w = BitVec.ofNat 32 n) :
    w + 1 = BitVec.ofNat 32 (n + 1) := by
  rw [h, BitVec.ofNat_add]
  rfl

theorem Conserved.reap (h : l.Conserved) (d : Fin 4) : (l.reap d).Conserved := by
  obtain ⟨honce, hdrops, hring, hcard⟩ := id h
  unfold TxLog.reap FrontDesk.reap
  dsimp only
  cases hbusy : l.desk.txBusy d with
  | none => exact h
  | some frame =>
    rw [FrontDesk.busy_of_some hbusy] at honce
    dsimp only
    split_ifs with hrun hok hroom
    · exact h
    · exact ⟨by simpa [FrontDesk.queue] using honce, hdrops, hring, hcard⟩
    · have hqueue : ({ l.desk with txBusy := update l.desk.txBusy d none }.requeue frame).queue =
          frame :: l.desk.queue := Ring.read_update_pred _ hring.1 hroom frame
      refine ⟨?_, hdrops, ⟨Nat.mod_lt _ (by decide), hroom⟩, hcard⟩
      simpa [hqueue, ← Multiset.cons_coe] using honce
    · refine ⟨by simpa [FrontDesk.queue] using honce, ?_, hring, hcard⟩
      exact (counted hdrops).trans (by simp [Nat.add_right_comm])

theorem Conserved.load (h : l.Conserved) :
    Conserved { l with desk := l.desk.load l.desk.txqCount } := by
  refine FrontDesk.load_preserves (P := fun f => Conserved { l with desk := f }) ?_ h le_rfl
  rintro f d ⟨honce, hdrops, hring, hcard⟩ hpos hnone
  refine ⟨?_, hdrops, ⟨Nat.mod_lt _ (by decide), (Nat.sub_le _ _).trans hring.2⟩, hcard⟩
  rw [honce, FrontDesk.queue_handOver hpos d]
  simp [FrontDesk.handOver, FrontDesk.fill, FrontDesk.busy_of_none hnone, ← Multiset.cons_coe]

theorem Conserved.txPump (h : l.Conserved) : l.txPump.Conserved := by
  have hreaped : ∀ ds : List (Fin 4), (ds.foldl TxLog.reap l).Conserved := by
    intro ds
    induction ds generalizing l with
    | nil => exact h
    | cons d ds ih => exact ih (h.reap d)
  unfold TxLog.txPump FrontDesk.txPump
  rw [foldl_hom TxLog.desk desk_reap]
  exact (hreaped (finRange 4)).load

theorem Conserved.enqueue (h : l.Conserved) (hlt : l.desk.txqCount < txQueueLen) (data : Frame) :
    Conserved { l with desk := l.desk.enqueue data, accepted := data ::ₘ l.accepted } := by
  obtain ⟨honce, hdrops, hring, hcard⟩ := h
  refine ⟨?_, hdrops, ⟨hring.1, hlt⟩, hcard⟩
  dsimp only
  rw [honce, FrontDesk.queue_enqueue hring hlt,
    Multiset.coe_eq_coe.mpr (perm_append_singleton data _)]
  simp [FrontDesk.enqueue, ← Multiset.cons_coe]

theorem Conserved.send (h : l.Conserved) (data : Frame) : (l.send data).Conserved := by
  obtain ⟨honce, hdrops, hring, hcard⟩ := id h
  unfold TxLog.send
  dsimp only
  rcases FrontDesk.frontdeskSend_cases hcard data with ⟨hlen, heq⟩ | ⟨hlen, heq | ⟨hroom, heq⟩⟩
  · rw [heq, if_pos hlen]
    exact ⟨honce, hdrops, hring, hcard⟩
  · rw [heq, if_neg hlen]
    exact ⟨honce, counted hdrops, hring, hcard⟩
  · rw [heq]
    exact (h.enqueue (lt_of_le_of_ne hring.2 hroom) data).txPump

theorem Conserved.step (h : l.Conserved) (e : TxEvent) : (l.step e).Conserved := by
  have hshown (tsd : Fin 4 → Word) : (l.shown tsd).Conserved := ⟨h.once, h.drops, h.ring, h.card⟩
  cases e with
  | send tsd data => exact (hshown tsd).send data
  | irq tsd => exact (hshown tsd).txPump

end TxLog

end Aevros
