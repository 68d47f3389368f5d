import LibeventLearn.Reactor.Slots

/-!
# The status flag and the interest set

The reactor keeps the same fact twice: a slot has status 1, "being monitored", and the kernel
has its descriptor registered under the slot's mask and address.  `Monitored` says that the two
agree.  No function looks at the result of `epoll_ctl`, so they stay in agreement exactly as
long as the kernel grants the calls; this file finds the exact condition for each operation,
and lifts it to runs.
-/

namespace LibeventLearn.Reactor

open Lib Epoll

/-- The status flags and the interest set agree, and no two monitored slots share a
descriptor. -/
structure Monitored (w : World) : Prop where
  status_iff : ∀ p, (w.slot p).status = 1 ↔
    w.kernel.interest (w.slot p).fd = some ((w.slot p).events, p)
  fd_inj : ∀ p q, (w.slot p).status = 1 → (w.slot q).status = 1 →
    (w.slot p).fd = (w.slot q).fd → p = q

/-- The operations that update both. -/
inductive SlotOp where
  /-- `event_add`, called right after `event_set`. -/
  | eventAdd (events : Mask) (p : Slot)
  | eventDel (p : Slot)
  | recvdata (events : Mask) (p : Slot)
  | senddata (events : Mask) (p : Slot)
  /-- The body of the idle sweep. -/
  | timeout (now : ℤ) (p : Slot)

/-- The operation, a callback being called with the descriptor of its slot. -/
def SlotOp.run (io : Io) (w : World) : SlotOp → World
  | .eventAdd events p => Reactor.eventAdd io events p w
  | .eventDel p => Reactor.eventDel io p w
  | .recvdata events p => (Reactor.recvdata io (w.slot p).fd events p w).1
  | .senddata events p => (Reactor.senddata io (w.slot p).fd events p w).1
  | .timeout now p => (sweepSlot io now p w).1

/-- How the operations are called: `event_add` on a slot that `event_set` has left. -/
def SlotOp.Called (w : World) : SlotOp → Prop
  | .eventAdd _ p => (w.slot p).status = 0
  | _ => True

/-- Adding the descriptor of the slot `p` takes effect, or has nothing to do. -/
def AddTakes (io : Io) (m : Mask) (p : Slot) (w : World) : Prop :=
  (io.ctl .add (w.slot p).fd = true ∧ w.kernel.isOpen (w.slot p).fd = true ∧
      w.kernel.interest (w.slot p).fd = none) ∨
    w.kernel.interest (w.slot p).fd = some (m, p)

/-- Deleting and adding again takes effect, or neither does and the mask is the same. -/
def RearmTakes (io : Io) (m : Mask) (p : Slot) (w : World) : Prop :=
  if (w.slot p).status = 1 then
    (io.ctl .del (w.slot p).fd = true ∧ io.ctl .add (w.slot p).fd = true) ∨
      (io.ctl .del (w.slot p).fd = false ∧ (w.slot p).events = m)
  else AddTakes io m p w

/-- The descriptor of the slot is not that of another monitored slot. -/
def CloseTakes (p : Slot) (w : World) : Prop :=
  (w.slot p).status = 1 ∨ ∀ q, (w.slot q).status = 1 → (w.slot q).fd ≠ (w.slot p).fd

/-- What the kernel has to grant for the operation to keep the two in agreement. -/
def SlotOp.Granted (io : Io) (w : World) : SlotOp → Prop
  | .eventAdd events p => AddTakes io events p w
  | .eventDel p => (w.slot p).status = 1 → io.ctl .del (w.slot p).fd = true
  | .recvdata _ p =>
    match io.recv (w.slot p).fd with
    | .data _ _ _ => RearmTakes io epollOut p w
    | .eof => CloseTakes p w
    | .error => CloseTakes p w
  | .senddata _ p =>
    if 0 < io.send (w.slot p).fd then RearmTakes io epollIn p w else CloseTakes p w
  | .timeout _ _ => True

/-! ## The agreement -/

variable {io : Io} {p q : Slot} {m : Mask} {w w' : World}

/-- Two slots cannot be registered under one descriptor. -/
lemma monitored_of_status_iff (h : ∀ p, (w.slot p).status = 1 ↔
    w.kernel.interest (w.slot p).fd = some ((w.slot p).events, p)) : Monitored w := by
  refine ⟨h, fun p q hp hq hfd => ?_⟩
  have hp' := (h p).1 hp
  have hq' := (h q).1 hq
  rw [hfd, hq'] at hp'
  exact (congrArg Prod.snd (Option.some.inj hp')).symm

/-- Whoever is registered under a monitored slot's descriptor is that slot. -/
lemma Monitored.eq_of_interest (h : Monitored w) {e : Mask} (hq : (w.slot q).status = 1)
    (hi : w.kernel.interest (w.slot q).fd = some (e, p)) : q = p := by
  rw [(h.status_iff q).1 hq] at hi
  exact congrArg Prod.snd (Option.some.inj hi)

/-- After a change at the slot `p` and its descriptor that leaves `p` with status 1, the two
agree exactly when the descriptor is registered for `p`. -/
lemma Monitored.iff_of_armed (h : Monitored w)
    (hstatus : (w'.slot p).status = 1) (hfd : (w'.slot p).fd = (w.slot p).fd)
    (hslot : ∀ q ≠ p, w'.slot q = w.slot q)
    (hint : ∀ fd ≠ (w.slot p).fd, w'.kernel.interest fd = w.kernel.interest fd)
    (hself : w'.kernel.interest (w.slot p).fd = some ((w'.slot p).events, p) →
      ∀ q ≠ p, (w.slot q).status = 1 → (w.slot q).fd ≠ (w.slot p).fd) :
    Monitored w' ↔ w'.kernel.interest (w.slot p).fd = some ((w'.slot p).events, p) := by
  constructor
  · intro h'
    rw [← hfd]
    exact (h'.status_iff p).1 hstatus
  · intro hreg
    refine monitored_of_status_iff fun q => ?_
    by_cases hq : q = p
    · subst hq
      rw [hfd]
      exact iff_of_true hstatus hreg
    rw [hslot q hq]
    by_cases hqfd : (w.slot q).fd = (w.slot p).fd
    · have hdead : (w.slot q).status ≠ 1 := fun hs => hself hreg q hq hs hqfd
      rw [hqfd, hreg]
      refine iff_of_false hdead fun heq => hq ?_
      exact (congrArg Prod.snd (Option.some.inj heq)).symm
    · rw [hint _ hqfd]
      exact h.status_iff q

/-- A descriptor without a registration belongs to no monitored slot. -/
lemma Monitored.fd_ne_of_none (h : Monitored w) (hi : w.kernel.interest (w.slot p).fd = none)
    (hq : (w.slot q).status = 1) : (w.slot q).fd ≠ (w.slot p).fd := by
  intro hfd
  have := (h.status_iff q).1 hq
  rw [hfd, hi] at this
  exact absurd this (by simp)

/-- `event_add` on a slot that `event_set` has left. -/
lemma Monitored.eventAdd_iff (h : Monitored w) (hs : (w.slot p).status ≠ 1) :
    Monitored (eventAdd io m p w) ↔ AddTakes io m p w := by
  have hint := eventAdd_interest_self io m hs
  rw [h.iff_of_armed (p := p) (by rw [eventAdd_slot_self]; rfl) (by rw [eventAdd_slot_self]; rfl)
    (fun q hq => eventAdd_slot_of_ne hq) (fun fd hfd => eventAdd_interest_of_ne hfd) ?_,
    eventAdd_slot_self, hint, AddTakes]
  · show _ = some (m, p) ↔ _
    rw [ite_eq_left_iff, or_iff_not_imp_left]
  · intro hreg q hq hqs hqfd
    rw [hint] at hreg
    split at hreg
    · rename_i hadd
      exact h.fd_ne_of_none hadd.2.2 hqs hqfd
    · rw [← hqfd] at hreg
      exact hq (h.eq_of_interest hqs hreg)

/-- What a handing over leaves registered, in terms of the kernel's decisions. -/
lemma Monitored.interestRearm_iff (h : Monitored w) :
    interestRearm io m p w = some (m, p) ↔ RearmTakes io m p w := by
  unfold interestRearm interestDel RearmTakes
  by_cases hs : (w.slot p).status = 1
  · have hreg := (h.status_iff p).1 hs
    have hopen : w.kernel.isOpen (w.slot p).fd = true :=
      w.kernel.open_of_registered _ (by rw [hreg]; simp)
    by_cases hd : io.ctl .del (w.slot p).fd = true
    · simp [hs, hd, hopen]
    · simp [hs, hd, hreg]
  · simp only [hs, false_and, if_false, AddTakes]
    rw [ite_eq_left_iff, or_iff_not_imp_left]

/-- A callback that hands over. -/
lemma Monitored.rearmed_iff (h : Monitored w) {cb : Callback} {g : MyEvent → MyEvent}
    (hr : Rearmed io p cb m g w w') : Monitored w' ↔ RearmTakes io m p w := by
  have hev : (w'.slot p).events = m := by rw [hr.slot_self]; rfl
  rw [h.iff_of_armed (p := p) (by rw [hr.slot_self]; rfl) (by rw [hr.slot_self]; rfl)
    hr.slot_of_ne hr.interest_of_ne ?_, hev, hr.interest_self, h.interestRearm_iff]
  intro hreg q hq hqs hqfd
  rw [hev, hr.interest_self, h.interestRearm_iff, RearmTakes] at hreg
  split at hreg
  · rename_i hps
    exact hq (h.fd_inj q p hqs hps hqfd)
  · rcases hreg with hadd | hold
    · exact h.fd_ne_of_none hadd.2.2 hqs hqfd
    · rw [← hqfd] at hold
      exact hq (h.eq_of_interest hqs hold)

/-- Closing the connection in a slot. -/
lemma Monitored.dropped_iff (h : Monitored w) (hd : Dropped p w w') :
    Monitored w' ↔ CloseTakes p w := by
  have hdead : (w'.slot p).status ≠ 1 := by
    rw [hd.slot_self]
    exact statusDel_ne _
  constructor
  · intro h'
    by_cases hs : (w.slot p).status = 1
    · exact Or.inl hs
    refine Or.inr fun q hq hqfd => ?_
    have hqp : q ≠ p := by
      rintro rfl
      exact hs hq
    have hreg := (h'.status_iff q).1 (by rwa [hd.slot_of_ne q hqp])
    rw [hd.slot_of_ne q hqp, hqfd, hd.interest, Function.update_self] at hreg
    exact absurd hreg (by simp)
  · intro hc
    refine monitored_of_status_iff fun q => ?_
    by_cases hq : q = p
    · subst hq
      refine iff_of_false hdead ?_
      rw [hd.slot_self, hd.interest]
      simp
    rw [hd.slot_of_ne q hq, hd.interest]
    by_cases hqfd : (w.slot q).fd = (w.slot p).fd
    · rw [hqfd, Function.update_self]
      refine iff_of_false (fun hqs => ?_) (by simp)
      rcases hc with hs | hc
      · exact hq (h.fd_inj q p hqs hs hqfd)
      · exact hc q hqs hqfd
    · rw [Function.update_of_ne hqfd]
      exact h.status_iff q

/-- `event_del`. -/
lemma Monitored.eventDel_iff (h : Monitored w) :
    Monitored (eventDel io p w) ↔
      ((w.slot p).status = 1 → io.ctl .del (w.slot p).fd = true) := by
  by_cases hs : (w.slot p).status = 1
  swap
  · rw [eventDel_of_ne hs]
    exact iff_of_true h fun hs' => absurd hs' hs
  have hself : (eventDel io p w).slot p = { w.slot p with status := 0 } := by
    rw [eventDel_slot_self, statusDel, if_pos hs]
  have hint := eventDel_interest_self io p w
  rw [interestDel] at hint
  simp only [hs, true_and, true_implies] at hint ⊢
  constructor
  · intro h'
    by_contra hd
    have hreg := h'.status_iff p
    rw [hself] at hreg
    change (0 : ℤ) = 1 ↔ (eventDel io p w).kernel.interest (w.slot p).fd = some (_, p) at hreg
    rw [hint, if_neg hd] at hreg
    cases (hreg.2 ((h.status_iff p).1 hs))
  · intro hd
    rw [if_pos hd] at hint
    refine monitored_of_status_iff fun q => ?_
    by_cases hq : q = p
    · subst hq
      rw [hself]
      show (0 : ℤ) = 1 ↔ (eventDel io q w).kernel.interest (w.slot q).fd = some (_, q)
      rw [hint]
      simp
    rw [eventDel_slot_of_ne hq]
    by_cases hqfd : (w.slot q).fd = (w.slot p).fd
    · rw [hqfd, hint]
      exact iff_of_false (fun hqs => hq (h.fd_inj q p hqs hs hqfd)) (by simp)
    · rw [eventDel_interest_of_ne hqfd]
      exact h.status_iff q

/-- **One operation.**  It keeps the agreement exactly when the kernel grants what it needs. -/
lemma Monitored.run_iff (h : Monitored w) {op : SlotOp} (hop : op.Called w) :
    Monitored (op.run io w) ↔ op.Granted io w := by
  cases op with
  | eventAdd events p =>
    have hs : (w.slot p).status = 0 := hop
    exact h.eventAdd_iff (by rw [hs]; decide)
  | eventDel p => exact h.eventDel_iff
  | recvdata events p =>
    simp only [SlotOp.run, SlotOp.Granted]
    split
    · rename_i bytes hpos hle hrecv
      exact h.rearmed_iff (recvdata_data hrecv).1
    · rename_i hrecv
      exact h.dropped_iff (recvdata_stop (Or.inl hrecv)).1
    · rename_i hrecv
      exact h.dropped_iff (recvdata_stop (Or.inr hrecv)).1
  | senddata events p =>
    simp only [SlotOp.run, SlotOp.Granted]
    split
    · rename_i hsend
      exact h.rearmed_iff (senddata_pos hsend).1
    · rename_i hsend
      exact h.dropped_iff (senddata_nonpos hsend).1
  | timeout now p =>
    simp only [SlotOp.run, SlotOp.Granted, iff_true]
    by_cases hidle : Idle now (w.slot p)
    · exact (h.dropped_iff (sweepSlot_idle io hidle).1).2 (Or.inl hidle.1)
    · rw [sweepSlot_not_idle hidle]
      exact h

/-- The operations as steps of a program. -/
def slotStep (l : SlotOp × Io) (w : World) : Option (World × List Act) :=
  some (l.1.run l.2 w, [])

/-- **The status flag is the truth exactly while the kernel grants every call.**  An operation
called on a world in which the flags and the interest set agree leaves them in agreement if and
only if `epoll_ctl` grants what it needs; and they agree after every operation of a run if and
only if every operation of it is granted that. -/
theorem monitored_iff_granted (w : World) (h : Monitored w) :
    (∀ (io : Io) (op : SlotOp), op.Called w → (Monitored (op.run io w) ↔ op.Granted io w)) ∧
      ∀ ops : List (SlotOp × Io), Allowed slotStep (fun w l => l.1.Called w) ops w →
        (Throughout slotStep (fun _ _ r => Monitored r.1) ops w ↔
          Allowed slotStep (fun w l => l.1.Granted l.2 w) ops w) := by
  refine ⟨fun io op hop => h.run_iff hop, fun ops hops => ?_⟩
  refine throughout_iff_allowed Monitored ?_ ?_ h hops
  · intro w l hw hl
    constructor
    · rintro ⟨r, hr, hmon⟩
      obtain rfl : (l.1.run l.2 w, []) = r := Option.some.inj hr
      exact (hw.run_iff hl).1 hmon
    · intro hg
      exact ⟨_, rfl, (hw.run_iff hl).2 hg⟩
  · intro w l r hw hl hg hr
    obtain rfl : (l.1.run l.2 w, []) = r := Option.some.inj hr
    exact (hw.run_iff hl).2 hg

lemma monitored_pending : Monitored World.pending := by
  refine monitored_of_status_iff fun p => ?_
  have hstatus : (World.pending.slot p).status = 0 := by
    by_cases hp : p = 0
    · rw [hp, pending_slot_zero]
      rfl
    · rw [pending_slot_of_ne hp]
      rfl
  rw [hstatus]
  exact iff_of_false (by decide) (by simp [World.pending, World.initial, Kernel.empty])

lemma pending_called : (SlotOp.eventAdd epollIn 0).Called World.pending := by
  show (World.pending.slot 0).status = 0
  rw [pending_slot_zero]
  rfl

lemma pending_granted : (SlotOp.eventAdd epollIn 0).Granted (Io.still true) World.pending := by
  refine Or.inl ⟨rfl, ?_, rfl⟩
  rw [pending_slot_zero]
  rfl

theorem monitored_iff_granted_pending :
    Throughout slotStep (fun _ _ r => Monitored r.1)
      [(.eventAdd epollIn 0, Io.still true)] World.pending := by
  have hops : Allowed slotStep (fun w l => l.1.Called w)
      [(SlotOp.eventAdd epollIn 0, Io.still true)] World.pending :=
    allowed_cons.2 ⟨pending_called, fun _ _ => allowed_nil _ _⟩
  have hgranted : Allowed slotStep (fun w l => l.1.Granted l.2 w)
      [(SlotOp.eventAdd epollIn 0, Io.still true)] World.pending :=
    allowed_cons.2 ⟨pending_granted, fun _ _ => allowed_nil _ _⟩
  exact ((monitored_iff_granted World.pending monitored_pending).2 _ hops).2 hgranted

/-- The kernel refuses to add the descriptor: the slot has status 1, but no event will ever be
reported for it. -/
theorem eventAdd_refused :
    ¬ ∀ (w : World) (io : Io) (op : SlotOp), Monitored w → op.Called w →
      Monitored (op.run io w) := by
  intro h
  have hafter :=
    h World.pending (Io.still false) (.eventAdd epollIn 0) monitored_pending pending_called
  rcases (monitored_pending.run_iff pending_called).1 hafter with hadd | hreg
  · exact absurd hadd.1 (by simp [Io.still])
  · simp [World.pending, World.initial, Kernel.empty] at hreg

end LibeventLearn.Reactor
