import Aevros.Sockets.Journal
import Aevros.Tcp.Dispatch

/-! # Sends that fail

`switchboard_send` reports a failure on two paths on which something was already committed. On all
others nothing of the payload is ever transmitted.
-/

namespace Aevros

open Function Runs

variable {data : List Byte} {me : Identity} {frame : Frame}

/-- The system holds the frame for a later tick, in Foyer or for retransmission. -/
def Net.Holds (s : Net) (frame : Frame) : Prop :=
  (∃ i mac, (s.office.foyer i).inUse = true ∧ frame = readdress mac (s.office.foyer i).frame) ∨
    ∃ c i, ((s.conns c).scheduler.seg i).inUse = true ∧ frame = ((s.conns c).scheduler.seg i).frame

/-- The system transmitted only what it held in `s` and ARP requests, and holds nothing new. -/
structure Net.Subsides (s s' : Net) : Prop where
  foyer : ∀ i, (s'.office.foyer i).inUse = true → (s.office.foyer i).inUse = true ∧
    (s'.office.foyer i).frame = (s.office.foyer i).frame
  seg : ∀ c i, ((s'.conns c).scheduler.seg i).inUse = true →
    ((s.conns c).scheduler.seg i).inUse = true ∧
      ((s'.conns c).scheduler.seg i).frame = ((s.conns c).scheduler.seg i).frame
  wire : ∀ frame ∈ s'.office.wire, frame ∈ s.office.wire ∨ s.Holds frame ∨ IsArpRequest frame

namespace Net.Subsides

variable {s s' s'' : Net}

theorem holds (h : s.Subsides s') (hh : s'.Holds frame) : s.Holds frame := by
  rcases hh with ⟨i, mac, hu, hf⟩ | ⟨c, i, hu, hf⟩
  · obtain ⟨hu', he⟩ := h.foyer i hu
    exact .inl ⟨i, mac, hu', he ▸ hf⟩
  · obtain ⟨hu', he⟩ := h.seg c i hu
    exact .inr ⟨c, i, hu', he ▸ hf⟩

theorem trans (h : s.Subsides s') (h' : s'.Subsides s'') : s.Subsides s'' where
  foyer i hu := by
    obtain ⟨hu', he'⟩ := h'.foyer i hu
    obtain ⟨hu'', he⟩ := h.foyer i hu'
    exact ⟨hu'', he'.trans he⟩
  seg c i hu := by
    obtain ⟨hu', he'⟩ := h'.seg c i hu
    obtain ⟨hu'', he⟩ := h.seg c i hu'
    exact ⟨hu'', he'.trans he⟩
  wire frame hf := by
    rcases h'.wire frame hf with hw | hh | ha
    · exact h.wire frame hw
    · exact .inr (.inl (h.holds hh))
    · exact .inr (.inr ha)

theorem transmit {o' : Office} (h : s.Subsides s') (hf : s.Holds frame ∨ IsArpRequest frame)
    (ht : s'.office.Transmits frame o') : s.Subsides { s' with office := o' } where
  foyer i hu := by
    rw [ht.1] at hu ⊢
    exact h.foyer i hu
  seg := h.seg
  wire f hw := by
    rcases ht.2 with he | he
    · exact h.wire f (he ▸ hw)
    · rw [he, List.mem_append, List.mem_singleton] at hw
      rcases hw with hw | rfl
      · exact h.wire f hw
      · exact .inr hf

theorem of_office {o' : Office} (hf : o'.foyer = s.office.foyer) (hw : o'.wire = s.office.wire) :
    s.Subsides { s with office := o' } where
  foyer i hu := by
    rw [hf] at hu ⊢
    exact ⟨hu, rfl⟩
  seg c i hu := ⟨hu, rfl⟩
  wire f h := .inl (by rw [← hw]; exact h)

theorem refl (s : Net) : s.Subsides s := of_office rfl rfl

theorem foldl {ι : Type*} {f : Net → ι → Net} (hf : ∀ (s : Net) i, s.Subsides (f s i))
    (s : Net) (is : List ι) : s.Subsides (is.foldl f s) := by
  induction is generalizing s with
  | nil => exact refl s
  | cons i is ih => exact (hf s i).trans (ih _)

theorem of_entry {i : Fin foyerCapacity} {e : FoyerEntry}
    (he : e.inUse = true → (s.office.foyer i).inUse = true ∧ e.frame = (s.office.foyer i).frame) :
    s.Subsides { s with
      office := { s.office with foyer := update s.office.foyer i e } } where
  foyer j hu := by
    dsimp only at hu ⊢
    by_cases hj : j = i
    · subst hj
      rw [update_self] at hu ⊢
      exact he hu
    · rw [update_of_ne hj] at hu ⊢
      exact ⟨hu, rfl⟩
  seg c j hu := ⟨hu, rfl⟩
  wire f h := .inl h

theorem foyerTickEntry (s : Net) (mac : Mac) (i : Fin foyerCapacity) :
    s.Subsides { s with office := foyerTickEntry mac s.office i } := by
  unfold Aevros.foyerTickEntry
  dsimp only
  split
  · exact refl s
  · rename_i hu
    have hu : (s.office.foyer i).inUse = true := by simpa using hu
    split
    · rename_i known _
      refine (of_entry (i := i) ?_).transmit (.inl (.inl ⟨i, known, hu, rfl⟩))
        (transmits_bailiffTransmit _ _)
      rintro ⟨⟩
    · split_ifs
      · exact refl s
      · refine of_entry ?_
        rintro ⟨⟩
      · let e := { s.office.foyer i with
          retryCount := (s.office.foyer i).retryCount + 1, lastAttempt := s.office.ticks }
        have he : s.Subsides { s with
            office := { s.office with foyer := update s.office.foyer i e } } :=
          of_entry fun _ => ⟨hu, rfl⟩
        obtain ⟨frame, ha, ht⟩ := transmits_sendArpRequest
          { s.office with foyer := update s.office.foyer i e } mac e.targetIp
        exact he.transmit (.inr ha) ht

theorem foyerTick (s : Net) (mac : Mac) :
    s.Subsides { s with office := foyerTick s.office mac } := by
  have hfold : ∀ (is : List (Fin foyerCapacity)) (o : Office), Net.Subsides { s with office := o }
        { s with office := is.foldl (Aevros.foyerTickEntry mac) o } := by
    intro is
    induction is with
    | nil => exact fun o => refl _
    | cons i is ih => exact fun o => (foyerTickEntry { s with office := o } mac i).trans (ih _)
  exact hfold _ s.office

theorem schedulerTimer_tracked (now : Word) (k : Conn) :
    (∀ i, ((schedulerTimer now k).2.scheduler.seg i).inUse = true →
      (k.scheduler.seg i).inUse = true ∧
        ((schedulerTimer now k).2.scheduler.seg i).frame = (k.scheduler.seg i).frame) ∧
      ∀ frame ∈ (schedulerTimer now k).1,
        ∃ i, (k.scheduler.seg i).inUse = true ∧ frame = (k.scheduler.seg i).frame := by
  unfold schedulerTimer
  dsimp only
  split
  · exact ⟨fun i hu => ⟨hu, rfl⟩, by simp⟩
  · split
    · exact ⟨fun i hu => ⟨hu, rfl⟩, by simp⟩
    · rename_i i hi
      split_ifs
      · exact ⟨fun i hu => ⟨hu, rfl⟩, by simp⟩
      · refine ⟨fun j hu => ?_, by simp⟩
        unfold rapportOnRst at hu
        split_ifs at hu <;> exact Bool.noConfusion hu
      · refine ⟨fun j hu => ⟨hu, rfl⟩, ?_⟩
        rintro frame ⟨⟩
        exact ⟨i, PacketsState.oldest_inUse hi, rfl⟩

theorem schedulerTickSlot (s : Net) (c : Slot) : s.Subsides (schedulerTickSlot s c) := by
  unfold Aevros.schedulerTickSlot
  split
  · exact refl s
  · obtain ⟨hseg, hframe⟩ := schedulerTimer_tracked s.office.ticks (s.conns c)
    have hact : s.Subsides (s.act c (.timer s.office.ticks)) := by
      refine ⟨fun i hu => ⟨hu, rfl⟩, fun d i hu => ?_, fun f hf => .inl hf⟩
      by_cases hd : d = c
      · subst hd
        rw [Net.act_conns_self] at hu ⊢
        exact hseg i hu
      · rw [Net.act_conns_of_ne hd] at hu ⊢
        exact ⟨hu, rfl⟩
    cases hr : (schedulerTimer s.office.ticks (s.conns c)).1 with
    | none => exact hact
    | some frame =>
      obtain ⟨i, hu, hf⟩ := hframe frame hr
      exact hact.transmit (.inl (.inr ⟨c, i, hu, hf⟩)) (transmits_bailiffTransmit _ _)

end Net.Subsides

section

variable (s : Net)

/-- Ticks, with changes of the office that leave Foyer alone and transmit nothing. -/
def LaterTick : Event → Prop
  | .schedulerTick | .foyerTick | .clock _ => True
  | .outside o => o.foyer = s.office.foyer ∧ o.wire = s.office.wire
  | _ => False

theorem subsides_step (e : Event) (he : LaterTick s e) : s.Subsides (s.step e) := by
  cases e with
  | schedulerTick => exact .foldl Net.Subsides.schedulerTickSlot s _
  | foyerTick => exact .foyerTick s _
  | clock ticks => exact .of_office rfl rfl
  | outside o => exact .of_office he.1 he.2
  | _ => exact he.elim

theorem subsides_run (es : List Event) (hes : Along Net.step LaterTick s es) :
    s.Subsides (run Net.step s es) :=
  hes.run_invariant (I := s.Subsides) (fun _ e hs he => hs.trans (subsides_step _ e he)) (.refl s)

def Net.afterSend (c : Slot) (data : List Byte) (me : Identity) : Net :=
  { s.act c (.send s.office data me) with
    office := (switchboardSend s.office (s.conns c) data me).2.1 }

theorem Net.afterSend_conns_self (c : Slot) (data : List Byte) (me : Identity) :
    (s.afterSend c data me).conns c = (switchboardSend s.office (s.conns c) data me).2.2 :=
  s.act_conns_self c (.send s.office data me)

theorem Untraced.subsides {s : Net} {c : Slot}
    (h : Untraced s.office (s.conns c) (s.afterSend c data me).office
      ((s.afterSend c data me).conns c)) :
    s.Subsides (s.afterSend c data me) where
  foyer i hu := by
    rw [h.foyer] at hu ⊢
    exact ⟨hu, rfl⟩
  seg d i hu := by
    have hseg : ((s.afterSend c data me).conns d).scheduler.seg = (s.conns d).scheduler.seg := by
      by_cases hd : d = c
      · subst hd
        exact h.seg
      · exact congrArg (·.scheduler.seg) (Net.act_conns_of_ne hd _)
    rw [hseg] at hu ⊢
    exact ⟨hu, rfl⟩
  wire frame hf := .inl (h.wire ▸ hf)

/-- A failed send leaves no trace exactly if its frame is neither kept by Foyer nor passless. -/
theorem failed_send_untraced_iff (c : Slot) (data : List Byte) (me : Identity) :
    ((switchboardSend s.office (s.conns c) data me).1 = false →
        Untraced s.office (s.conns c) (s.afterSend c data me).office
          ((s.afterSend c data me).conns c) ∧
        ∀ es, Along Net.step LaterTick (s.afterSend c data me) es →
          ∀ frame ∈ (run Net.step (s.afterSend c data me) es).office.wire,
            frame ∈ s.office.wire ∨ s.Holds frame ∨ IsArpRequest frame) ↔
      ¬ ((s.conns c).Sendable data ∧
        s.office.Strands (s.conns c).box.remoteIp ((s.conns c).dataFrame data me)) := by
  rw [← switchboardSend_failed_untraced_iff, ← Net.afterSend_conns_self]
  constructor
  · exact fun h hfalse => (h hfalse).1
  · intro h hfalse
    have huntraced := h hfalse
    exact ⟨huntraced, fun es hes => (huntraced.subsides.trans (subsides_run _ es hes)).wire⟩

end

theorem failed_send_transmitted_later :
    let established := run Net.step (.boot sampleOffice) (sampleHandshake ++ [.clock 6001])
    let s := established.step (.outside { established.office with
      rolodex := rolodexLearn 6001 established.office.rolodex ⟨10, 0, 2, 3⟩ ⟨3, 3, 3, 3, 3, 3⟩ })
    let me := getIdentity s.office
    let s' := s.afterSend 1 [0x61] me
    let learnt := s'.step (.outside { s'.office with
      rolodex := rolodexLearn 6001 s'.office.rolodex samplePeer ⟨2, 2, 2, 2, 2, 2⟩ })
    let frame := (s.conns 1).dataFrame [0x61] me ⟨2, 2, 2, 2, 2, 2⟩
    (switchboardSend s.office (s.conns 1) [0x61] me).1 = false ∧
      frame ∉ s'.office.wire ∧ frame ∈ (learnt.step .foyerTick).office.wire := by
  decide +kernel

end Aevros
