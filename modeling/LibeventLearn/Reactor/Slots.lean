import LibeventLearn.Reactor.Model

/-!
# What the functions of the reactor do to one slot

Each function of the reactor works on one slot and on the descriptor in it.  For each of them
this file says what it leaves there, and that it leaves everything else alone: `Rearmed` for a
callback that hands its slot to the other callback, `Dropped` for a callback or a sweep that
closes the connection.
-/

namespace LibeventLearn.Reactor

open Lib Epoll

variable {io : Io} {p q : Slot} {m : Mask} {w w' : World} {f : MyEvent → MyEvent}
  {hf : KeepsArg p f} {fd : ℤ}

/-! ## Changing a slot -/

@[simp] lemma modify_slot_self : (w.modify p f hf).slot p = f (w.slot p) := by
  simp [World.slot, World.modify, SlotTable.modify]

lemma modify_slot_of_ne (h : q ≠ p) : (w.modify p f hf).slot q = w.slot q := by
  simp [World.slot, World.modify, SlotTable.modify, Function.update_of_ne h]

@[simp] lemma modify_kernel : (w.modify p f hf).kernel = w.kernel := rfl

@[simp] lemma setKernel_slot {k : Kernel Slot} : (w.setKernel k).slot q = w.slot q := rfl

@[simp] lemma setKernel_kernel {k : Kernel Slot} : (w.setKernel k).kernel = k := rfl

@[simp] lemma fill_status {bytes : List UInt8} {h : bytes.length ≤ bufLen} {ev : MyEvent} :
    (ev.fill bytes h).status = ev.status := rfl

@[simp] lemma fill_fd {bytes : List UInt8} {h : bytes.length ≤ bufLen} {ev : MyEvent} :
    (ev.fill bytes h).fd = ev.fd := rfl

/-! ## `event_add` -/

@[simp] lemma eventAdd_slot_self :
    (eventAdd io m p w).slot p = (w.slot p).monitor m := by
  simp [eventAdd]

lemma eventAdd_slot_of_ne (h : q ≠ p) : (eventAdd io m p w).slot q = w.slot q := by
  rw [eventAdd, setKernel_slot, modify_slot_of_ne h]

@[simp] lemma eventAdd_isOpen : (eventAdd io m p w).kernel.isOpen = w.kernel.isOpen := by
  simp [eventAdd]

lemma eventAdd_interest_of_ne (h : fd ≠ (w.slot p).fd) :
    (eventAdd io m p w).kernel.interest fd = w.kernel.interest fd :=
  Kernel.epollCtl_interest_of_ne h

/-- `event_add` on a slot with another status than 1, seen at its descriptor. -/
lemma eventAdd_interest_self (io : Io) (m : Mask) (h : (w.slot p).status ≠ 1) :
    (eventAdd io m p w).kernel.interest (w.slot p).fd =
      if io.ctl .add (w.slot p).fd = true ∧ w.kernel.isOpen (w.slot p).fd = true ∧
          w.kernel.interest (w.slot p).fd = none
      then some (m, p) else w.kernel.interest (w.slot p).fd := by
  simp only [eventAdd, if_neg h]
  exact Kernel.epollCtl_add_interest

/-! ## `event_del` -/

lemma eventDel_of_ne (h : (w.slot p).status ≠ 1) : eventDel io p w = w := if_pos h

lemma eventDel_of_eq (h : (w.slot p).status = 1) :
    eventDel io p w =
      (w.modify p MyEvent.absent keepsArg_absent).setKernel
        (w.kernel.epollCtl (io.ctl .del (w.slot p).fd) .del (w.slot p).fd (0, p)).2 :=
  if_neg (not_not.2 h)

/-- The status after `event_del`. -/
def statusDel (s : ℤ) : ℤ := if s = 1 then 0 else s

lemma statusDel_ne (s : ℤ) : statusDel s ≠ 1 := by
  unfold statusDel
  split <;> simp_all

@[simp] lemma eventDel_slot_self :
    (eventDel io p w).slot p =
      { w.slot p with status := statusDel (w.slot p).status } := by
  by_cases h : (w.slot p).status = 1
  · rw [eventDel_of_eq h, setKernel_slot, modify_slot_self, statusDel, if_pos h]
    rfl
  · rw [eventDel_of_ne h, statusDel, if_neg h]

lemma eventDel_slot_of_ne (h : q ≠ p) : (eventDel io p w).slot q = w.slot q := by
  by_cases hs : (w.slot p).status = 1
  · rw [eventDel_of_eq hs, setKernel_slot, modify_slot_of_ne h]
  · rw [eventDel_of_ne hs]

@[simp] lemma eventDel_isOpen : (eventDel io p w).kernel.isOpen = w.kernel.isOpen := by
  by_cases h : (w.slot p).status = 1
  · simp [eventDel_of_eq h]
  · rw [eventDel_of_ne h]

lemma eventDel_interest_of_ne (h : fd ≠ (w.slot p).fd) :
    (eventDel io p w).kernel.interest fd = w.kernel.interest fd := by
  by_cases hs : (w.slot p).status = 1
  · rw [eventDel_of_eq hs]
    exact Kernel.epollCtl_interest_of_ne h
  · rw [eventDel_of_ne hs]

/-- What `event_del` leaves at the descriptor of its slot. -/
def interestDel (io : Io) (p : Slot) (w : World) : Option (Mask × Slot) :=
  if (w.slot p).status = 1 ∧ io.ctl .del (w.slot p).fd = true then none
  else w.kernel.interest (w.slot p).fd

lemma eventDel_interest_self (io : Io) (p : Slot) (w : World) :
    (eventDel io p w).kernel.interest (w.slot p).fd = interestDel io p w := by
  by_cases h : (w.slot p).status = 1
  · rw [eventDel_of_eq h, interestDel]
    simp only [h, true_and]
    exact Kernel.epollCtl_del_interest
  · rw [eventDel_of_ne h, interestDel, if_neg (by simp [h])]

/-! ## A callback that hands over to the other one -/

/-- What `event_del`, `event_set` and `event_add` leave at the descriptor of the slot. -/
def interestRearm (io : Io) (m : Mask) (p : Slot) (w : World) : Option (Mask × Slot) :=
  if io.ctl .add (w.slot p).fd = true ∧ w.kernel.isOpen (w.slot p).fd = true ∧
      interestDel io p w = none
  then some (m, p) else interestDel io p w

/-- The effect of a callback that hands its slot to `cb` under the mask `m`, after `g` has
worked on the buffer. -/
structure Rearmed (io : Io) (p : Slot) (cb : Callback) (m : Mask) (g : MyEvent → MyEvent)
    (w w' : World) : Prop where
  slot_self : w'.slot p =
    (eventSet (w.slot p).fd cb p io.time (g (w.slot p))).monitor m
  slot_of_ne : ∀ q ≠ p, w'.slot q = w.slot q
  isOpen : w'.kernel.isOpen = w.kernel.isOpen
  interest_self : w'.kernel.interest (w.slot p).fd = interestRearm io m p w
  interest_of_ne : ∀ fd ≠ (w.slot p).fd, w'.kernel.interest fd = w.kernel.interest fd

/-- The effect of `recvdata` on the slot's buffer. -/
def received (bytes : List UInt8) (h : bytes.length ≤ bufLen) (ev : MyEvent) : MyEvent :=
  (ev.fill bytes h).terminate bytes.length h

/-- The last two calls of a handing over, on a slot that `event_del` has been through. -/
lemma rearm_of_deleted {cb : Callback} {g : MyEvent → MyEvent} {w₁ : World}
    (hslot : ∃ s, w₁.slot p = { g (w.slot p) with status := s })
    (hne : ∀ q ≠ p, w₁.slot q = w.slot q)
    (hkernel : w₁.kernel = (eventDel io p w).kernel) :
    Rearmed io p cb m g w
      (eventAdd io m p (w₁.modify p (eventSet (w.slot p).fd cb p io.time)
        keepsArg_eventSet)) := by
  obtain ⟨s, hs⟩ := hslot
  constructor
  · rw [eventAdd_slot_self, modify_slot_self, hs]
    rfl
  · intro q hq
    rw [eventAdd_slot_of_ne hq, modify_slot_of_ne hq, hne q hq]
  · rw [eventAdd_isOpen, modify_kernel, hkernel, eventDel_isOpen]
  · have hfd : ((w₁.modify p (eventSet (w.slot p).fd cb p io.time)
        keepsArg_eventSet).slot p).fd = (w.slot p).fd := by
      rw [modify_slot_self]
      rfl
    have h := eventAdd_interest_self io m (p := p)
      (w := w₁.modify p (eventSet (w.slot p).fd cb p io.time) keepsArg_eventSet) (by
        rw [modify_slot_self]
        simp [eventSet])
    rw [hfd, modify_kernel, hkernel, eventDel_isOpen, eventDel_interest_self] at h
    exact h
  · intro fd hfd
    rw [eventAdd_interest_of_ne (by rw [modify_slot_self]; exact hfd), modify_kernel, hkernel,
      eventDel_interest_of_ne hfd]

/-- `recvdata` on a slot whose descriptor yields data. -/
theorem recvdata_data {bytes : List UInt8} {hpos : 0 < bytes.length}
    {hle : bytes.length ≤ bufLen} (h : io.recv (w.slot p).fd = .data bytes hpos hle) :
    Rearmed io p .senddata epollOut (received bytes hle) w
        (recvdata io (w.slot p).fd m p w).1 ∧
      (recvdata io (w.slot p).fd m p w).2 = [.recv p (w.slot p).fd bytes] := by
  simp only [recvdata, h]
  refine ⟨rearm_of_deleted ?_ ?_ ?_, trivial⟩
  · refine ⟨statusDel (w.slot p).status, ?_⟩
    rw [modify_slot_self, eventDel_slot_self, modify_slot_self]
    simp only [received, MyEvent.terminate]
    split <;> rfl
  · intro q hq
    rw [modify_slot_of_ne hq, eventDel_slot_of_ne hq, modify_slot_of_ne hq]
  · by_cases hs : (w.slot p).status = 1
    · rw [modify_kernel, eventDel_of_eq hs, eventDel_of_eq (by simpa using hs)]
      simp
    · rw [modify_kernel, eventDel_of_ne hs, eventDel_of_ne (by simpa using hs), modify_kernel]

/-- `senddata` on a slot whose descriptor accepts data. -/
theorem senddata_pos (h : 0 < io.send (w.slot p).fd) :
    Rearmed io p .recvdata epollIn id w (senddata io (w.slot p).fd m p w).1 ∧
      (senddata io (w.slot p).fd m p w).2 =
        [.send p (w.slot p).fd
          ((w.slot p).outgoing.take (io.send (w.slot p).fd).toNat)] := by
  simp only [senddata, if_pos h]
  refine ⟨rearm_of_deleted ⟨_, eventDel_slot_self⟩ ?_ rfl, trivial⟩
  intro q hq
  exact eventDel_slot_of_ne hq

/-! ## Closing -/

/-- The effect of closing the connection in a slot. -/
structure Dropped (p : Slot) (w w' : World) : Prop where
  slot_self : w'.slot p = { w.slot p with status := statusDel (w.slot p).status }
  slot_of_ne : ∀ q ≠ p, w'.slot q = w.slot q
  isOpen : w'.kernel.isOpen = Function.update w.kernel.isOpen (w.slot p).fd false
  interest : w'.kernel.interest = Function.update w.kernel.interest (w.slot p).fd none

/-- The close after `event_del`, as the callbacks do it. -/
lemma closeSlot_eventDel :
    Dropped p w (closeSlot p (eventDel io p w)).1 ∧
      (closeSlot p (eventDel io p w)).2 =
        [.close p (w.slot p).fd (w.kernel.isOpen (w.slot p).fd)] := by
  refine ⟨⟨?_, fun q hq => ?_, ?_, ?_⟩, ?_⟩
  · exact eventDel_slot_self
  · exact eventDel_slot_of_ne hq
  · simp [closeSlot]
  · funext fd
    by_cases h : fd = (w.slot p).fd
    · simp [closeSlot, h]
    · simp [closeSlot, Function.update_of_ne h, eventDel_interest_of_ne h]
  · simp [closeSlot]

/-- The close before `event_del`, as the idle sweep does it: the kernel has no registration
left to delete, whatever it answers. -/
lemma eventDel_closeSlot :
    Dropped p w (eventDel io p (closeSlot p w).1) ∧
      (closeSlot p w).2 = [.close p (w.slot p).fd (w.kernel.isOpen (w.slot p).fd)] := by
  have hslot : ∀ q, (closeSlot p w).1.slot q = w.slot q := fun _ => rfl
  refine ⟨⟨?_, fun q hq => ?_, ?_, ?_⟩, rfl⟩
  · rw [eventDel_slot_self, hslot]
  · rw [eventDel_slot_of_ne hq, hslot]
  · rw [eventDel_isOpen]
    rfl
  · funext fd
    by_cases h : fd = (w.slot p).fd
    · subst h
      have := eventDel_interest_self io p (closeSlot p w).1
      rw [hslot] at this
      rw [this, interestDel]
      simp [closeSlot]
    · rw [eventDel_interest_of_ne (by rwa [hslot])]
      simp [closeSlot, Function.update_of_ne h]

/-- `recvdata` at the end of the stream or on an error. -/
theorem recvdata_stop (h : io.recv (w.slot p).fd = .eof ∨ io.recv (w.slot p).fd = .error) :
    Dropped p w (recvdata io (w.slot p).fd m p w).1 ∧
      (recvdata io (w.slot p).fd m p w).2 =
        [.close p (w.slot p).fd (w.kernel.isOpen (w.slot p).fd)] := by
  rcases h with h | h <;> simp only [recvdata, h] <;> exact closeSlot_eventDel

/-- `senddata` when `send` accepts nothing. -/
theorem senddata_nonpos (h : ¬ 0 < io.send (w.slot p).fd) :
    Dropped p w (senddata io (w.slot p).fd m p w).1 ∧
      (senddata io (w.slot p).fd m p w).2 =
        [.close p (w.slot p).fd (w.kernel.isOpen (w.slot p).fd)] := by
  simp only [senddata, if_neg h]
  exact closeSlot_eventDel

/-! ## The callbacks -/

/-- The ways `recvdata` and `senddata`, run as callbacks of the slot `p`, can go. -/
inductive CallbackCase (p : Slot) (io : Io) (w : World) (r : World × List Act) : Prop
  | received (bytes : List UInt8) (hpos : 0 < bytes.length) (hle : bytes.length ≤ bufLen)
      (hcb : (w.slot p).callBack = .recvdata)
      (hrecv : io.recv (w.slot p).fd = .data bytes hpos hle)
      (hslot : Rearmed io p .senddata epollOut (received bytes hle) w r.1)
      (hact : r.2 = [.recv p (w.slot p).fd bytes])
  | sent (hcb : (w.slot p).callBack = .senddata) (hpos : 0 < io.send (w.slot p).fd)
      (hslot : Rearmed io p .recvdata epollIn id w r.1)
      (hact : r.2 = [.send p (w.slot p).fd
        ((w.slot p).outgoing.take (io.send (w.slot p).fd).toNat)])
  | closed (hcause : ((w.slot p).callBack = .recvdata ∧
          (io.recv (w.slot p).fd = .eof ∨ io.recv (w.slot p).fd = .error)) ∨
        ((w.slot p).callBack = .senddata ∧ io.send (w.slot p).fd ≤ 0))
      (hslot : Dropped p w r.1)
      (hact : r.2 = [.close p (w.slot p).fd (w.kernel.isOpen (w.slot p).fd)])

/-- Inversion of a callback.  A slot that has a callback passes itself to it. -/
theorem invoke_cases (io : Io) (m : Mask)
    (h : (w.slot p).callBack = .recvdata ∨ (w.slot p).callBack = .senddata) :
    ∃ r, invoke io (w.slot p).callBack (w.slot p).fd m (w.slot p).arg w = some r ∧
      CallbackCase p io w r := by
  have harg : (w.slot p).arg = some p := by
    refine w.gEvents.arg_own p ?_
    rcases h with h | h <;> rw [h] <;> decide
  rw [harg]
  rcases h with hcb | hcb
  · simp only [hcb, invoke]
    refine ⟨_, rfl, ?_⟩
    cases hrecv : io.recv (w.slot p).fd with
    | data bytes hpos hle =>
      obtain ⟨hslot, hact⟩ := recvdata_data (m := m) hrecv
      exact .received bytes hpos hle hcb hrecv hslot hact
    | eof =>
      obtain ⟨hslot, hact⟩ := recvdata_stop (m := m) (Or.inl hrecv)
      exact .closed (Or.inl ⟨hcb, Or.inl hrecv⟩) hslot hact
    | error =>
      obtain ⟨hslot, hact⟩ := recvdata_stop (m := m) (Or.inr hrecv)
      exact .closed (Or.inl ⟨hcb, Or.inr hrecv⟩) hslot hact
  · simp only [hcb, invoke]
    refine ⟨_, rfl, ?_⟩
    by_cases hsend : 0 < io.send (w.slot p).fd
    · obtain ⟨hslot, hact⟩ := senddata_pos (m := m) hsend
      exact .sent hcb hsend hslot hact
    · obtain ⟨hslot, hact⟩ := senddata_nonpos (m := m) hsend
      exact .closed (Or.inr ⟨hcb, not_lt.1 hsend⟩) hslot hact

/-! ## The idle sweep -/

lemma castSucc_ne_listener (i : Fin maxEvents) : (i.castSucc : Slot) ≠ listener :=
  Fin.ne_of_lt (Fin.castSucc_lt_last i)

/-- The slot is one that the idle sweep closes at the clock reading `now`. -/
def Idle (now : ℤ) (ev : MyEvent) : Prop := ev.status = 1 ∧ 60 ≤ now - ev.lastActive

/-- The sweep of an idle slot. -/
theorem sweepSlot_idle (io : Io) {now : ℤ} (h : Idle now (w.slot p)) :
    Dropped p w (sweepSlot io now p w).1 ∧
      (sweepSlot io now p w).2 =
        [.close p (w.slot p).fd (w.kernel.isOpen (w.slot p).fd)] := by
  rw [sweepSlot, if_neg (not_not.2 h.1), if_pos h.2]
  exact eventDel_closeSlot

/-- The sweep leaves every other slot alone. -/
theorem sweepSlot_not_idle {now : ℤ} (h : ¬ Idle now (w.slot p)) :
    sweepSlot io now p w = (w, []) := by
  unfold sweepSlot
  split
  · rfl
  · rename_i hs
    rw [if_neg fun hi => h ⟨not_not.1 hs, hi⟩]

/-! ## A server with one connection -/

lemma pending_slot_zero : World.pending.slot 0 = eventSet 5 .recvdata 0 0 MyEvent.zero :=
  modify_slot_self

lemma pending_slot_of_ne (h : p ≠ 0) : World.pending.slot p = MyEvent.zero :=
  modify_slot_of_ne h

lemma connected_slot_zero :
    World.connected.slot 0 = (eventSet 5 .recvdata 0 0 MyEvent.zero).monitor epollIn := by
  rw [World.connected, eventAdd_slot_self, pending_slot_zero]

lemma connected_slot_of_ne (h : p ≠ 0) : World.connected.slot p = MyEvent.zero := by
  rw [World.connected, eventAdd_slot_of_ne h, pending_slot_of_ne h]

lemma connected_isOpen (fd : ℤ) : World.connected.kernel.isOpen fd = decide (fd = 5) := by
  rw [World.connected, eventAdd_isOpen]
  by_cases h : fd = 5 <;> simp [World.pending, Kernel.empty, h]

lemma connected_interest (fd : ℤ) :
    World.connected.kernel.interest fd = if fd = 5 then some (epollIn, 0) else none := by
  have hfd : (World.pending.slot 0).fd = 5 := by
    rw [pending_slot_zero]
    rfl
  by_cases h : fd = 5
  · have hadd := eventAdd_interest_self (Io.still true) epollIn (p := 0) (w := World.pending) (by
      rw [pending_slot_zero]
      decide)
    rw [hfd] at hadd
    rw [h, World.connected, hadd, if_pos rfl]
    rfl
  · rw [World.connected, eventAdd_interest_of_ne (by rwa [hfd]), if_neg h]
    rfl

end LibeventLearn.Reactor
