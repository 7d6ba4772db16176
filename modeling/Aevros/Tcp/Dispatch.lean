import Aevros.Office.Passes
import Aevros.Tcp.Effects

/-! # What a dispatch comes to

`Outcome` lists the four ways in which a send or a close can end, and the results say which of them
leave a trace.
-/

namespace Aevros

open Option

variable {o : Office} {k : Conn} {data : List Byte} {me : Identity} {frame : Frame}

def Conn.frameTo (k : Conn) (flags : Byte) (payload : List Byte) (me : Identity) (mac : Mac) :
    Frame :=
  tcpFrame mac me.mac me.ip k.box.remoteIp ⟨k.box.localPort, k.box.remotePort, k.rapport.sendSeq,
    k.rapport.expectedSeq, flags, BitVec.ofNat 16 (waystationReceiveWindow k).1, payload⟩

/-- How a call ends that dispatches a segment if the connection is `able` to. -/
inductive Outcome (o : Office) (k : Conn) (me : Identity) (able : Prop) (frames : Mac → Frame)
    (done : Frame → Conn) : Bool × Office × Conn → Prop
  | refused (h : able → atlasLookup o.atlas k.box.remoteIp = none) :
      Outcome o k me able frames done (false, o, k)
  /-- The hardware address of the next hop is unknown: the frame is left with Foyer. -/
  | foyer (nextHop : Ip4) (ha : able) (hr : atlasLookup o.atlas k.box.remoteIp = some nextHop)
      (hm : rolodexLookup o.rolodex nextHop = none) :
      Outcome o k me able frames done
        (false, (foyerQueue o nextHop me.mac (frames {})).2, (waystationReceiveWindow k).2)
  | noPass (nextHop : Ip4) (mac : Mac) (ha : able)
      (hr : atlasLookup o.atlas k.box.remoteIp = some nextHop)
      (hm : rolodexLookup o.rolodex nextHop = some mac)
      (hp : (o.bailiff.reclaimExpired o.ticks).freePass = none) :
      Outcome o k me able frames done
        (false, { o with bailiff := o.bailiff.reclaimExpired o.ticks },
          (waystationReceiveWindow k).2)
  /-- The segment is tracked, and then the frame is presented to Bailiff and the driver. -/
  | presented (nextHop : Ip4) (mac : Mac) (i : Fin bailiffMaxPasses) (ha : able)
      (hr : atlasLookup o.atlas k.box.remoteIp = some nextHop)
      (hm : rolodexLookup o.rolodex nextHop = some mac)
      (hp : (o.bailiff.reclaimExpired o.ticks).freePass = some i) (r : Bool × Office)
      (hpresent : r =
        bailiffPresentPass (o.withPass i (frames mac)) o.bailiff.nextPassId (frames mac)) :
      Outcome o k me able frames done (r.1, r.2, done (frames mac))

theorem Outcome.row {able : Prop} {frames : Mac → Frame} {done : Frame → Conn}
    {r : Bool × Office × Conn} {P : Conn → Prop} (h : Outcome o k me able frames done r)
    (hsame : P k) (hwindow : P (waystationReceiveWindow k).2)
    (hdone : able → ∀ frame, P (done frame)) : P r.2.2 := by
  cases h with
  | refused => exact hsame
  | foyer => exact hwindow
  | noPass => exact hwindow
  | presented _ mac _ ha => exact hdone ha (frames mac)

theorem length_frameTo (k : Conn) (flags : Byte) (me : Identity)
    (hd : data.length ≤ tcpMaxPayload) (mac : Mac) :
    0 < (k.frameTo flags data me mac).length ∧
      (k.frameTo flags data me mac).length ≤ bailiffMaxFrame := by
  have hlen : (k.frameTo flags data me mac).length = 54 + data.length := length_tcpFrame _ _ _ _ _
  unfold tcpMaxPayload at hd
  unfold bailiffMaxFrame
  omega

theorem conversationDispatch_of_able {flags : Byte} (hd : data.length ≤ tcpMaxPayload)
    (hf : flagMakeSense flags = true) (hu : k.box.inUse = true) :
    conversationDispatch o k flags k.rapport.sendSeq k.rapport.expectedSeq data me =
      match atlasLookup o.atlas k.box.remoteIp with
      | none => (none, o, k)
      | some nextHop =>
        let known := rolodexLookup o.rolodex nextHop
        let frame := k.frameTo flags data me (known.getD {})
        if known.isNone then
          (none, (foyerQueue o nextHop me.mac frame).2, (waystationReceiveWindow k).2)
        else
          let pass := bailiffRequestPass o frame
          (pass.1.map fun passId => (passId, frame), pass.2, (waystationReceiveWindow k).2) := by
  unfold conversationDispatch
  rw [if_neg (not_lt.mpr hd), if_neg (by simp [hf]), if_neg (by simp [hu])]
  rfl

theorem outcome_of_able {able : Prop} {flags : Byte} (ha : able)
    (hd : data.length ≤ tcpMaxPayload) (hf : flagMakeSense flags = true)
    (hu : k.box.inUse = true) (seqLen : ℕ) (after : Conn → Conn) :
    Outcome o k me able (k.frameTo flags data me)
      (fun frame => after ((waystationReceiveWindow k).2.setScheduler
        (schedulerTrack o.ticks k.scheduler k.rapport.sendSeq seqLen frame).2))
      (presentDispatched
        (match dispatchTracked o k flags k.rapport.sendSeq k.rapport.expectedSeq data seqLen me with
        | (none, o, k) => (none, o, k)
        | (some sent, o, k) => (some sent, o, after k))) := by
  unfold dispatchTracked
  rw [conversationDispatch_of_able hd hf hu]
  cases hr : atlasLookup o.atlas k.box.remoteIp with
  | none => exact .refused fun _ => hr
  | some nextHop =>
    dsimp only
    cases hm : rolodexLookup o.rolodex nextHop with
    | none => exact .foyer nextHop ha hr hm
    | some mac =>
      have hlen := length_frameTo k flags me hd mac
      cases hp : (o.bailiff.reclaimExpired o.ticks).freePass with
      | none =>
        have hpass : bailiffRequestPass o (k.frameTo flags data me mac) =
            (none, { o with bailiff := o.bailiff.reclaimExpired o.ticks }) := by
          unfold bailiffRequestPass
          rw [if_neg (by omega)]
          dsimp only
          rw [hp]
        simp only [getD_some, hpass]
        exact .noPass nextHop mac ha hr hm hp
      | some i =>
        simp only [getD_some, bailiffRequestPass_of_free hp hlen]
        exact .presented nextHop mac i ha hr hm hp _ rfl

theorem dispatchTracked_of_free (hu : k.box.inUse = false) (flags : Byte) (seq ack : Word)
    (seqLen : ℕ) : dispatchTracked o k flags seq ack data seqLen me = (none, o, k) := by
  unfold dispatchTracked conversationDispatch
  split_ifs <;> simp_all

structure Conn.Sendable (k : Conn) (data : List Byte) : Prop where
  inUse : k.box.inUse = true
  established : k.rapport.status = .established
  nonempty : data.length ≠ 0
  fits : data.length ≤ tcpMaxPayload
  slot : schedulerFreeSlots k.scheduler ≠ 0
  allowed : rapportSendAllowed k data.length = true

def Conn.dataFrame (k : Conn) (data : List Byte) (me : Identity) (mac : Mac) : Frame :=
  k.frameTo flagAck data me mac

def Conn.sent (k : Conn) (now : Word) (data : List Byte) (frame : Frame) : Conn :=
  rapportAdvanceSendSeq ((waystationReceiveWindow k).2.setScheduler
    (schedulerTrack now k.scheduler k.rapport.sendSeq data.length frame).2) data.length

theorem switchboardSend_of_not_sendable (h : ¬ k.Sendable data) :
    switchboardSend o k data me = (false, o, k) := by
  unfold switchboardSend conversationDispatchData
  split_ifs with hlen hst hslot hallowed
  · rfl
  · rfl
  · rfl
  · rfl
  · have hfree : k.box.inUse = false := by
      rw [← Bool.not_eq_true]
      intro hu
      exact h ⟨hu, not_not.mp hst, fun h0 => hlen (.inl h0), not_lt.mp fun hl => hlen (.inr hl),
        hslot, by simpa using hallowed⟩
    rw [dispatchTracked_of_free hfree]
    rfl

theorem switchboardSend_outcome (o : Office) (k : Conn) (data : List Byte) (me : Identity) :
    Outcome o k me (k.Sendable data) (k.dataFrame data me) (k.sent o.ticks data)
      (switchboardSend o k data me) := by
  by_cases hs : k.Sendable data
  · have hfits := hs.fits
    have hnonempty := hs.nonempty
    unfold switchboardSend conversationDispatchData
    rw [if_neg (by omega), if_neg (not_not.mpr hs.established), if_neg hs.slot,
      if_neg (by simp [hs.allowed])]
    exact outcome_of_able hs hfits (by decide) hs.inUse data.length
      (rapportAdvanceSendSeq · data.length)
  · rw [switchboardSend_of_not_sendable hs]
    exact .refused fun h => absurd h hs

theorem add_ofNat_ne {n : ℕ} (x : Word) (h₀ : n ≠ 0) (hn : n < 2 ^ 32) :
    x + BitVec.ofNat 32 n ≠ x := by
  intro h
  have hnat := congrArg BitVec.toNat h
  rw [BitVec.toNat_add, BitVec.toNat_ofNat] at hnat
  omega

theorem Conn.Sendable.sendSeq_sent (hs : k.Sendable data) (now : Word) (frame : Frame) :
    (k.sent now data frame).rapport.sendSeq ≠ k.rapport.sendSeq := by
  have hfits := hs.fits
  unfold tcpMaxPayload at hfits
  exact add_ofNat_ne _ hs.nonempty (by omega)

structure Conn.Closable (k : Conn) : Prop where
  inUse : k.box.inUse = true
  status : k.rapport.status = .established ∨ k.rapport.status = .closeWait
  acked : schedulerBytesInFlight k.scheduler = 0

def Conn.finished (k : Conn) (now : Word) (frame : Frame) : Conn :=
  rapportInitiateClose (rapportAdvanceSendSeq ((waystationReceiveWindow k).2.setScheduler
    (schedulerTrack now k.scheduler k.rapport.sendSeq 1 frame).2) 1) k.rapport.sendSeq

theorem switchboardClose_of_not_closable (h : ¬ k.Closable) :
    switchboardClose o k me = (false, o, k) := by
  unfold switchboardClose conversationDispatchFin
  split_ifs with hst hflight
  · rfl
  · rfl
  · have hfree : k.box.inUse = false := by
      rw [← Bool.not_eq_true]
      intro hu
      refine h ⟨hu, ?_, by omega⟩
      by_cases he : k.rapport.status = .established
      · exact .inl he
      · exact .inr (not_not.mp fun hn => hst ⟨he, hn⟩)
    rw [dispatchTracked_of_free hfree]
    rfl

theorem switchboardClose_outcome (o : Office) (k : Conn) (me : Identity) :
    Outcome o k me k.Closable (k.frameTo (flagFin ||| flagAck) [] me) (k.finished o.ticks)
      (switchboardClose o k me) := by
  by_cases hc : k.Closable
  · unfold switchboardClose conversationDispatchFin
    have hst : ¬ (k.rapport.status ≠ .established ∧ k.rapport.status ≠ .closeWait) := by
      rintro ⟨he, hw⟩
      exact hc.status.elim he hw
    rw [if_neg hst, if_neg (by simp [hc.acked])]
    exact outcome_of_able hc (by simp) (by decide) hc.inUse 1
      (fun k' => rapportInitiateClose (rapportAdvanceSendSeq k' 1) k.rapport.sendSeq)
  · rw [switchboardClose_of_not_closable hc]
    exact .refused fun h => absurd h hc

theorem rapportInitiateClose_sendSeq (k : Conn) (finSeq : Word) :
    (rapportInitiateClose k finSeq).rapport.sendSeq = k.rapport.sendSeq := by
  unfold rapportInitiateClose
  dsimp only
  split <;> rfl

theorem Conn.sendSeq_finished (k : Conn) (now : Word) (frame : Frame) :
    (k.finished now frame).rapport.sendSeq ≠ k.rapport.sendSeq := by
  rw [Conn.finished, rapportInitiateClose_sendSeq]
  exact add_ofNat_ne _ one_ne_zero (by norm_num)

/-- Nothing was sent or prepared to be sent. -/
structure Untraced (o : Office) (k : Conn) (o' : Office) (k' : Conn) : Prop where
  status : k'.rapport.status = k.rapport.status
  sendSeq : k'.rapport.sendSeq = k.rapport.sendSeq
  seg : k'.scheduler.seg = k.scheduler.seg
  foyer : o'.foyer = o.foyer
  wire : o'.wire = o.wire

/-- Foyer takes a frame for the address, or Bailiff if the next hop is known. -/
def Office.Takes (o : Office) (dest : Ip4) : Prop :=
  ∃ nextHop ∈ atlasLookup o.atlas dest,
    match rolodexLookup o.rolodex nextHop with
    | none => (foyerFreeSlot o.foyer).isSome
    | some _ => (o.bailiff.reclaimExpired o.ticks).freePass.isSome

/-- The frame is left with Foyer, or it is refused after it got its pass. -/
def Office.Strands (o : Office) (dest : Ip4) (frames : Mac → Frame) : Prop :=
  ∃ nextHop ∈ atlasLookup o.atlas dest,
    match rolodexLookup o.rolodex nextHop with
    | none => (foyerFreeSlot o.foyer).isSome
    | some mac => ∃ i ∈ (o.bailiff.reclaimExpired o.ticks).freePass, ¬ o.Presents i (frames mac)

namespace Outcome

variable {able : Prop} {frames : Mac → Frame} {done : Frame → Conn} {r : Bool × Office × Conn}

theorem untraced_iff (h : Outcome o k me able frames done r)
    (hlen : able → ∀ mac, 0 < (frames mac).length ∧ (frames mac).length ≤ bailiffMaxFrame)
    (hdone : able → ∀ frame, (done frame).rapport.sendSeq ≠ k.rapport.sendSeq) :
    Untraced o k r.2.1 r.2.2 ↔ ¬ (able ∧ o.Takes k.box.remoteIp) := by
  cases h with
  | refused h =>
    refine iff_of_true ⟨rfl, rfl, rfl, rfl, rfl⟩ ?_
    rintro ⟨ha, nextHop, hr, -⟩
    rw [h ha] at hr
    exact not_mem_none _ hr
  | foyer nextHop ha hr hm =>
    cases hroom : foyerFreeSlot o.foyer with
    | none =>
      rw [foyerQueue_of_full hroom]
      refine iff_of_true ⟨rfl, rfl, rfl, rfl, rfl⟩ ?_
      rintro ⟨-, nextHop', hr', hc⟩
      cases mem_unique hr' hr
      rw [hm, hroom] at hc
      exact Bool.noConfusion hc
    | some i =>
      refine iff_of_false (fun h => ?_) (not_not.mpr ⟨ha, nextHop, hr, ?_⟩)
      · exact foyerQueue_of_room (hlen ha {}) hm hroom h.foyer
      · rw [hm, hroom]
        rfl
  | noPass nextHop mac ha hr hm hp =>
    refine iff_of_true ⟨rfl, rfl, rfl, rfl, rfl⟩ ?_
    rintro ⟨-, nextHop', hr', hc⟩
    cases mem_unique hr' hr
    rw [hm, hp] at hc
    exact Bool.noConfusion hc
  | presented nextHop mac i ha hr hm hp r hpresent =>
    refine iff_of_false (fun h => hdone ha _ h.sendSeq) (not_not.mpr ⟨ha, nextHop, hr, ?_⟩)
    rw [hm, hp]
    rfl

theorem failed_untraced_iff (h : Outcome o k me able frames done r)
    (hlen : able → ∀ mac, 0 < (frames mac).length ∧ (frames mac).length ≤ bailiffMaxFrame)
    (hdone : able → ∀ frame, (done frame).rapport.sendSeq ≠ k.rapport.sendSeq) :
    (r.1 = false → Untraced o k r.2.1 r.2.2) ↔ ¬ (able ∧ o.Strands k.box.remoteIp frames) := by
  have hall := h.untraced_iff hlen hdone
  cases h with
  | refused h =>
    refine iff_of_true (fun _ => ⟨rfl, rfl, rfl, rfl, rfl⟩) ?_
    rintro ⟨ha, nextHop, hr, -⟩
    rw [h ha] at hr
    exact not_mem_none _ hr
  | foyer nextHop ha hr hm =>
    rw [forall_prop_of_true rfl, hall]
    refine not_congr (and_congr_right fun _ => exists_congr fun nextHop' =>
      and_congr_right fun hr' => ?_)
    cases mem_unique hr' hr
    rw [hm]
  | noPass nextHop mac ha hr hm hp =>
    refine iff_of_true (fun _ => ⟨rfl, rfl, rfl, rfl, rfl⟩) ?_
    rintro ⟨-, nextHop', hr', hc⟩
    cases mem_unique hr' hr
    rw [hm] at hc
    obtain ⟨i, hi, -⟩ := hc
    rw [hp] at hi
    exact not_mem_none _ hi
  | presented nextHop mac i ha hr hm hp r hpresent =>
    have hiff : r.1 = true ↔ o.Presents i (frames mac) := by
      rw [hpresent]
      exact bailiffPresentPass_issue o i (frames mac)
    have hc : (able ∧ o.Strands k.box.remoteIp frames) ↔ ¬ o.Presents i (frames mac) := by
      constructor
      · rintro ⟨-, nextHop', hr', hc⟩
        cases mem_unique hr' hr
        rw [hm] at hc
        obtain ⟨j, hj, hc⟩ := hc
        cases mem_unique hj hp
        exact hc
      · intro hn
        refine ⟨ha, nextHop, hr, ?_⟩
        rw [hm]
        exact ⟨i, hp, hn⟩
    rw [hc, not_not, ← hiff]
    constructor
    · intro h
      rw [← Bool.not_eq_false]
      exact fun hfalse => hdone ha _ (h hfalse).sendSeq
    · intro htrue hfalse
      rw [htrue] at hfalse
      exact Bool.noConfusion hfalse

end Outcome

theorem switchboardSend_untraced_iff (o : Office) (k : Conn) (data : List Byte) (me : Identity) :
    Untraced o k (switchboardSend o k data me).2.1 (switchboardSend o k data me).2.2 ↔
      ¬ (k.Sendable data ∧ o.Takes k.box.remoteIp) :=
  (switchboardSend_outcome o k data me).untraced_iff
    (fun hs mac => length_frameTo k flagAck me hs.fits mac) fun hs => hs.sendSeq_sent o.ticks

theorem switchboardSend_failed_untraced_iff (o : Office) (k : Conn) (data : List Byte)
    (me : Identity) :
    ((switchboardSend o k data me).1 = false →
        Untraced o k (switchboardSend o k data me).2.1 (switchboardSend o k data me).2.2) ↔
      ¬ (k.Sendable data ∧ o.Strands k.box.remoteIp (k.dataFrame data me)) :=
  (switchboardSend_outcome o k data me).failed_untraced_iff
    (fun hs mac => length_frameTo k flagAck me hs.fits mac) fun hs => hs.sendSeq_sent o.ticks

theorem switchboardClose_untraced_iff (o : Office) (k : Conn) (me : Identity) :
    Untraced o k (switchboardClose o k me).2.1 (switchboardClose o k me).2.2 ↔
      ¬ (k.Closable ∧ o.Takes k.box.remoteIp) :=
  (switchboardClose_outcome o k me).untraced_iff
    (fun _ mac => length_frameTo k _ me (by simp) mac) fun _ => k.sendSeq_finished o.ticks

end Aevros
