import LibeventLearn.Reactor.Slots
import Mathlib.Data.List.Forall2

/-!
# No stale dispatch

The dispatch loop looks at a snapshot, the batch that `epoll_wait` returned, but calls whatever
callback the slot holds by then, and tests the slot's mask twice, before and after the callback
has rewritten it.  Nothing goes wrong, because a batch has one entry for each slot and a slot is
only changed by its own entry.  That needs an assumption the code does not state: no
registration names a slot other than the one that holds its descriptor.
-/

namespace LibeventLearn.Reactor

open Lib Epoll

variable {io : Io} {p q : Slot} {w w' : World} {e : EpollEvent}

/-! ## The state between two steps -/

/-- The callback and the mask of a slot belong together. -/
def MyEvent.Paired (ev : MyEvent) : Prop :=
  (ev.callBack = .recvdata ∧ ev.events = epollIn) ∨
    (ev.callBack = .senddata ∧ ev.events = epollOut)

/-- Every monitored client slot has an open descriptor of its own, registered under the slot
and its mask, and a callback that goes with the mask. -/
structure Established (w : World) : Prop where
  isOpen : ∀ p ≠ listener, (w.slot p).status = 1 → w.kernel.isOpen (w.slot p).fd = true
  fd_inj : ∀ p ≠ listener, ∀ q ≠ listener, (w.slot p).status = 1 → (w.slot q).status = 1 →
    (w.slot p).fd = (w.slot q).fd → p = q
  registered : ∀ p ≠ listener, (w.slot p).status = 1 →
    w.kernel.interest (w.slot p).fd = some ((w.slot p).events, p)
  paired : ∀ p ≠ listener, (w.slot p).status = 1 → (w.slot p).Paired

/-- In addition, nothing else is registered under a client slot. -/
structure Settled (w : World) : Prop extends Established w where
  sole : ∀ fd m p, p ≠ listener → w.kernel.interest fd = some (m, p) →
    (w.slot p).status = 1 ∧ (w.slot p).fd = fd

/-- The mask a callback is registered with. -/
def Callback.mask : Callback → Option Mask
  | .recvdata => some epollIn
  | .senddata => some epollOut
  | _ => none

/-- The action runs a callback. -/
def Act.isCallback : Act → Bool
  | .callback _ _ _ _ => true
  | _ => false

/-- Every `close` is applied to an open descriptor of the slot it is done for. -/
def ClosesOwn (w : World) (acts : List Act) : Prop :=
  ∀ p fd o, .close p fd o ∈ acts → o = true ∧ (w.slot p).status = 1 ∧ (w.slot p).fd = fd

/-- What is expected of the dispatch of one entry, `w₀` being the world in which `epoll_wait`
returned and `Start` the condition on the states between two steps. -/
structure EntryRight (Start : World → Prop) (w₀ w : World) (l : EpollEvent × Io)
    (r : World × List Act) : Prop where
  start : Start r.1
  once : (r.2.filter Act.isCallback).length ≤ 1
  fresh : ∀ p cb fd o, .callback p cb fd o ∈ r.2 → p = l.1.ptr ∧ o = true ∧
    ∃ m, cb.mask = some m ∧ w₀.kernel.interest fd = some (m, p)
  closes : ClosesOwn w r.2

/-- What is expected of one step of the main loop. -/
def LoopRight (Start : World → Prop) (s : World × Slot) (l : LoopStep)
    (r : (World × Slot) × List Act) : Prop :=
  Start r.1.1 ∧
    match l with
    | .sweep _ _ => ClosesOwn s.1 r.2
    | .batch es => Throughout dispatch (EntryRight Start s.1) es s.1

/-- `epoll_ctl` is granted what is in order, and `epoll_wait` returns entries of client
slots. -/
def LoopLegal (s : World × Slot) (l : LoopStep) : Prop :=
  match l with
  | .sweep _ io => ∀ op fd, io.ctl op fd = true
  | .batch es =>
    s.1.kernel.WaitReturns (es.map fun l => (l.1.events, l.1.ptr)) ∧
      ∀ l ∈ es, l.1.ptr ≠ listener ∧ ∀ op fd, l.2.ctl op fd = true

/-! ## The dispatch of one entry -/

/-- The two tests of the dispatch loop together.  The second one never adds a callback, because
only one of the two bits can be reported. -/
lemma dispatch_cases (io : Io) (hp : (w.slot e.ptr).Paired)
    (hbits : Reportable (w.slot e.ptr).events e.events) :
    (e.events.has (w.slot e.ptr).events = false ∧ dispatch (e, io) w = some (w, [])) ∨
      ∃ r, e.events.has (w.slot e.ptr).events = true ∧ CallbackCase e.ptr io w r ∧
        dispatch (e, io) w =
          some (r.1, .callback e.ptr (w.slot e.ptr).callBack (w.slot e.ptr).fd
            (w.kernel.isOpen (w.slot e.ptr).fd) :: r.2) := by
  obtain ⟨r, hr, hcase⟩ := invoke_cases io e.events (hp.imp And.left And.left)
  rcases hp with ⟨-, hev⟩ | ⟨-, hev⟩
  · -- waiting for data: `EPOLLOUT` is not reported, whatever the callback does to the mask
    have hout : e.events.has epollOut = false := hbits.has_eq_false (by rw [hev]; decide)
    by_cases hin : e.events.has epollIn = true
    · refine Or.inr ⟨r, by rwa [hev], hcase, ?_⟩
      have hmask : (w.slot e.ptr).events.has epollIn = true := by
        rw [hev]
        decide
      simp [dispatch, callIf, hin, hmask, hr, hout]
    · refine Or.inl ⟨by rw [hev]; simpa using hin, ?_⟩
      simp [dispatch, callIf, hin, hout]
  · -- waiting to send: `EPOLLIN` is not reported
    have hin : e.events.has epollIn = false := hbits.has_eq_false (by rw [hev]; decide)
    by_cases hout : e.events.has epollOut = true
    · refine Or.inr ⟨r, by rwa [hev], hcase, ?_⟩
      have hmask : (w.slot e.ptr).events.has epollOut = true := by
        rw [hev]
        decide
      simp [dispatch, callIf, hin, hmask, hr, hout]
    · refine Or.inl ⟨by rw [hev]; simpa using hout, ?_⟩
      simp [dispatch, callIf, hin, hout]

/-- A callback leaves the other slots and the other descriptors alone. -/
structure Untouched (p : Slot) (w w' : World) : Prop where
  slot : ∀ q ≠ p, w'.slot q = w.slot q
  isOpen : ∀ fd ≠ (w.slot p).fd, w'.kernel.isOpen fd = w.kernel.isOpen fd
  interest : ∀ fd ≠ (w.slot p).fd, w'.kernel.interest fd = w.kernel.interest fd

lemma Rearmed.untouched {cb : Callback} {m : Mask} {g : MyEvent → MyEvent}
    (h : Rearmed io p cb m g w w') : Untouched p w w' :=
  ⟨h.slot_of_ne, fun fd _ => congrFun h.isOpen fd, h.interest_of_ne⟩

lemma Dropped.untouched (h : Dropped p w w') : Untouched p w w' := by
  refine ⟨h.slot_of_ne, fun fd hfd => ?_, fun fd hfd => ?_⟩
  · rw [h.isOpen, Function.update_of_ne hfd]
  · rw [h.interest, Function.update_of_ne hfd]

lemma CallbackCase.untouched {r : World × List Act} (h : CallbackCase p io w r) :
    Untouched p w r.1 := by
  rcases h with ⟨_, _, _, _, _, hslot, _⟩ | ⟨_, _, hslot, _⟩ | ⟨_, hslot, _⟩
  · exact hslot.untouched
  · exact hslot.untouched
  · exact hslot.untouched

lemma CallbackCase.fd_eq {r : World × List Act} (h : CallbackCase p io w r) :
    (r.1.slot p).fd = (w.slot p).fd := by
  rcases h with ⟨_, _, _, _, _, hslot, _⟩ | ⟨_, _, hslot, _⟩ | ⟨_, hslot, _⟩
  · rw [hslot.slot_self]
    rfl
  · rw [hslot.slot_self]
    rfl
  · rw [hslot.slot_self]

/-! ## The state is kept -/

/-- After a change at one slot and its descriptor, the state has to be looked at there only. -/
lemma Settled.of_untouched (h : Settled w) (hp : p ≠ listener) (hs : (w.slot p).status = 1)
    (hu : Untouched p w w') (hfd : (w'.slot p).fd = (w.slot p).fd)
    (hlive : (w'.slot p).status = 1 → w'.kernel.isOpen (w.slot p).fd = true ∧
      w'.kernel.interest (w.slot p).fd = some ((w'.slot p).events, p) ∧ (w'.slot p).Paired)
    (hdead : (w'.slot p).status ≠ 1 → w'.kernel.interest (w.slot p).fd = none) :
    Settled w' := by
  -- the other monitored slots have other descriptors
  have hother : ∀ q ≠ listener, q ≠ p → (w'.slot q).status = 1 →
      (w.slot q).status = 1 ∧ (w.slot q).fd ≠ (w.slot p).fd := by
    intro q hq hqp hqs
    rw [hu.slot q hqp] at hqs
    exact ⟨hqs, fun heq => hqp (h.fd_inj q hq p hp hqs hs heq)⟩
  have hreg : ∀ q ≠ listener, (w'.slot q).status = 1 →
      w'.kernel.interest (w'.slot q).fd = some ((w'.slot q).events, q) := by
    intro q hq hqs
    by_cases hqp : q = p
    · subst hqp
      rw [hfd]
      exact (hlive hqs).2.1
    · obtain ⟨hqs', hne⟩ := hother q hq hqp hqs
      rw [hu.slot q hqp, hu.interest _ hne]
      exact h.registered q hq hqs'
  refine ⟨⟨fun q hq hqs => ?_, fun q hq q' hq' hqs hqs' heq => ?_, hreg, fun q hq hqs => ?_⟩,
    fun fd m q hq hint => ?_⟩
  · by_cases hqp : q = p
    · subst hqp
      rw [hfd]
      exact (hlive hqs).1
    · obtain ⟨hqs', hne⟩ := hother q hq hqp hqs
      rw [hu.slot q hqp, hu.isOpen _ hne]
      exact h.isOpen q hq hqs'
  · have hr := hreg q hq hqs
    rw [heq, hreg q' hq' hqs'] at hr
    exact (congrArg Prod.snd (Option.some.inj hr)).symm
  · by_cases hqp : q = p
    · subst hqp
      exact (hlive hqs).2.2
    · rw [hu.slot q hqp]
      exact h.paired q hq (hother q hq hqp hqs).1
  · by_cases hfd' : fd = (w.slot p).fd
    · subst hfd'
      by_cases hps : (w'.slot p).status = 1
      · rw [(hlive hps).2.1] at hint
        obtain rfl : p = q := congrArg Prod.snd (Option.some.inj hint)
        exact ⟨hps, hfd⟩
      · rw [hdead hps] at hint
        exact absurd hint (by simp)
    · rw [hu.interest fd hfd'] at hint
      obtain ⟨hqs, hqfd⟩ := h.sole fd m q hq hint
      have hqp : q ≠ p := by
        rintro rfl
        exact hfd' hqfd.symm
      rw [hu.slot q hqp]
      exact ⟨hqs, hqfd⟩

lemma Settled.rearmed (h : Settled w) (hp : p ≠ listener) (hs : (w.slot p).status = 1)
    (hctl : ∀ op fd, io.ctl op fd = true) {cb : Callback} {m : Mask} {g : MyEvent → MyEvent}
    (hm : (cb = .recvdata ∧ m = epollIn) ∨ (cb = .senddata ∧ m = epollOut))
    (hr : Rearmed io p cb m g w w') : Settled w' := by
  have hopen := h.isOpen p hp hs
  have hint : w'.kernel.interest (w.slot p).fd = some ((w'.slot p).events, p) := by
    rw [hr.interest_self, hr.slot_self]
    simp [interestRearm, interestDel, hctl, hs, hopen, MyEvent.monitor]
  refine h.of_untouched hp hs hr.untouched (by rw [hr.slot_self]; rfl) (fun _ => ?_)
    (fun hne => absurd ?_ hne)
  · refine ⟨by rw [hr.isOpen, hopen], hint, ?_⟩
    rw [hr.slot_self]
    exact hm
  · rw [hr.slot_self]
    rfl

lemma Settled.dropped (h : Settled w) (hp : p ≠ listener) (hs : (w.slot p).status = 1)
    (hd : Dropped p w w') : Settled w' := by
  have hstatus : (w'.slot p).status ≠ 1 := by
    rw [hd.slot_self]
    exact statusDel_ne _
  refine h.of_untouched hp hs hd.untouched (by rw [hd.slot_self])
    (fun hone => absurd hone hstatus) (fun _ => ?_)
  rw [hd.interest, Function.update_self]

lemma Settled.callback (h : Settled w) (hp : p ≠ listener) (hs : (w.slot p).status = 1)
    (hctl : ∀ op fd, io.ctl op fd = true) {r : World × List Act}
    (hcase : CallbackCase p io w r) : Settled r.1 := by
  rcases hcase with ⟨_, _, _, _, _, hslot, _⟩ | ⟨_, _, hslot, _⟩ | ⟨_, hslot, _⟩
  · exact h.rearmed hp hs hctl (Or.inr ⟨rfl, rfl⟩) hslot
  · exact h.rearmed hp hs hctl (Or.inl ⟨rfl, rfl⟩) hslot
  · exact h.dropped hp hs hslot

/-! ## One batch -/

lemma CallbackCase.acts {r : World × List Act} (h : CallbackCase p io w r) :
    r.2.filter Act.isCallback = [] ∧ (∀ q cb fd o, .callback q cb fd o ∉ r.2) ∧
      ∀ q fd o, .close q fd o ∈ r.2 →
        q = p ∧ fd = (w.slot p).fd ∧ o = w.kernel.isOpen (w.slot p).fd := by
  rcases h with ⟨_, _, _, _, _, _, hact⟩ | ⟨_, _, _, hact⟩ | ⟨_, _, hact⟩ <;> rw [hact]
  · exact ⟨rfl, by simp, by simp⟩
  · exact ⟨rfl, by simp, by simp⟩
  · refine ⟨rfl, by simp, fun q fd o hmem => ?_⟩
    simpa using hmem

/-- The entry is still to be dispatched: its slot is as it was when `epoll_wait` returned. -/
structure Pending (w₀ w : World) (l : EpollEvent × Io) : Prop where
  client : l.1.ptr ≠ listener
  live : (w.slot l.1.ptr).status = 1
  bits : Reportable (w.slot l.1.ptr).events l.1.events
  registered : w₀.kernel.interest (w.slot l.1.ptr).fd =
    some ((w.slot l.1.ptr).events, l.1.ptr)
  ctl : ∀ op fd, l.2.ctl op fd = true

lemma MyEvent.Paired.mask {ev : MyEvent} (h : ev.Paired) : ev.callBack.mask = some ev.events := by
  rcases h with ⟨hcb, hev⟩ | ⟨hcb, hev⟩ <;> rw [hcb, hev] <;> rfl

/-- **One entry.** -/
lemma entry_right {w₀ : World} {l : EpollEvent × Io} (h : Settled w) (hl : Pending w₀ w l) :
    ∃ r, dispatch l w = some r ∧ EntryRight Settled w₀ w l r ∧ Untouched l.1.ptr w r.1 := by
  obtain ⟨e, io⟩ := l
  have hpaired := h.paired e.ptr hl.client hl.live
  have hopen := h.isOpen e.ptr hl.client hl.live
  rcases dispatch_cases io hpaired hl.bits with ⟨-, hr⟩ | ⟨r, -, hcase, hr⟩
  · exact ⟨_, hr, ⟨h, by simp, by simp, fun _ _ _ hmem => absurd hmem (by simp)⟩,
      fun _ _ => rfl, fun _ _ => rfl, fun _ _ => rfl⟩
  obtain ⟨hnone, hno, hclose⟩ := hcase.acts
  have hset : Settled r.1 := h.callback hl.client hl.live hl.ctl hcase
  refine ⟨_, hr, ⟨hset, ?_, ?_, ?_⟩, hcase.untouched⟩
  · rw [List.filter_cons_of_pos rfl, hnone]
    rfl
  · intro p cb fd o hmem
    rcases List.mem_cons.1 hmem with heq | hmem
    · injection heq with hp hcb hfd ho
      subst hp hcb hfd ho
      exact ⟨rfl, hopen, _, hpaired.mask, hl.registered⟩
    · exact absurd hmem (hno p cb fd o)
  · intro p fd o hmem
    rcases List.mem_cons.1 hmem with heq | hmem
    · exact absurd heq (by simp)
    · obtain ⟨rfl, rfl, rfl⟩ := hclose p fd o hmem
      exact ⟨hopen, hl.live, rfl⟩

/-- **One batch.**  The entries that are still to come do not notice the ones dispatched
before. -/
lemma batch_right {w₀ : World} {es : List (EpollEvent × Io)} (h : Settled w)
    (hdistinct : es.Pairwise fun l l' => l.1.ptr ≠ l'.1.ptr)
    (hes : ∀ l ∈ es, Pending w₀ w l) : Throughout dispatch (EntryRight Settled w₀) es w := by
  induction es generalizing w with
  | nil => trivial
  | cons l es ih =>
    obtain ⟨hne, hdistinct⟩ := List.pairwise_cons.1 hdistinct
    obtain ⟨r, hr, hright, hu⟩ := entry_right h (hes l List.mem_cons_self)
    refine throughout_cons.2 ⟨r, hr, hright, ih hright.start hdistinct fun l' hl' => ?_⟩
    obtain ⟨hclient, hlive, hbits, hreg, hctl⟩ := hes l' (List.mem_cons_of_mem _ hl')
    have hslot := hu.slot l'.1.ptr (hne l' hl').symm
    refine ⟨hclient, ?_, ?_, ?_, hctl⟩ <;> rw [hslot] <;> assumption

/-- What `epoll_wait` returns in a settled world. -/
lemma Settled.pending (h : Settled w) {es : List (EpollEvent × Io)}
    (hwait : w.kernel.WaitReturns (es.map fun l => (l.1.events, l.1.ptr)))
    (hes : ∀ l ∈ es, l.1.ptr ≠ listener ∧ ∀ op fd, l.2.ctl op fd = true) :
    es.Pairwise (fun l l' => l.1.ptr ≠ l'.1.ptr) ∧ ∀ l ∈ es, Pending w w l := by
  obtain ⟨fds, hnodup, hall⟩ := hwait
  rw [List.forall₂_map_right_iff] at hall
  -- the descriptor of an entry is the one in its slot
  have hpending : fds = es.map (fun l => (w.slot l.1.ptr).fd) ∧ ∀ l ∈ es, Pending w w l := by
    clear hnodup
    induction hall with
    | nil => simp
    | @cons fd l fds es hl _ ih =>
      obtain ⟨m, hint, hbits⟩ := hl
      obtain ⟨hclient, hctl⟩ := hes l List.mem_cons_self
      obtain ⟨hlive, hfd⟩ := h.sole fd m _ hclient hint
      obtain ⟨ih₁, ih₂⟩ := ih fun l' hl' => hes l' (List.mem_cons_of_mem _ hl')
      have hreg := h.registered _ hclient hlive
      have hm : (w.slot l.1.ptr).events = m := by
        rw [hfd, hint] at hreg
        exact (congrArg Prod.fst (Option.some.inj hreg)).symm
      refine ⟨by rw [List.map_cons, hfd, ← ih₁], List.forall_mem_cons.2 ⟨?_, ih₂⟩⟩
      exact ⟨hclient, hlive, by rw [hm]; exact hbits, hreg, hctl⟩
  obtain ⟨rfl, hpending⟩ := hpending
  refine ⟨(List.pairwise_map.1 hnodup).imp fun hne heq => hne ?_, hpending⟩
  rw [heq]

/-! ## One sweep -/

/-- The inspection of one slot. -/
lemma sweepSlot_right (io : Io) (now : ℤ) (h : Settled w) (hp : p ≠ listener) :
    Settled (sweepSlot io now p w).1 ∧ ClosesOwn w (sweepSlot io now p w).2 ∧
      ∀ q, ((sweepSlot io now p w).1.slot q).status = 1 →
        (sweepSlot io now p w).1.slot q = w.slot q := by
  by_cases hidle : Idle now (w.slot p)
  · obtain ⟨hd, hact⟩ := sweepSlot_idle io hidle
    refine ⟨h.dropped hp hidle.1 hd, ?_, fun q hq => hd.slot_of_ne q ?_⟩
    · intro q fd o hmem
      rw [hact, List.mem_singleton] at hmem
      injection hmem with hqp hfd ho
      subst hqp hfd ho
      exact ⟨h.isOpen q hp hidle.1, hidle.1, rfl⟩
    · rintro rfl
      rw [hd.slot_self] at hq
      exact statusDel_ne _ hq
  · rw [sweepSlot_not_idle hidle]
    exact ⟨h, fun _ _ _ hmem => absurd hmem (by simp), fun _ _ => rfl⟩

/-- The sweep of any number of slots. -/
lemma sweep_right (io : Io) (now : ℤ) (n : ℕ) (checkpos : Slot) (h : Settled w) :
    Settled (sweep io now n checkpos w).1.1 ∧ ClosesOwn w (sweep io now n checkpos w).2 := by
  induction n generalizing checkpos w with
  | zero => exact ⟨h, fun _ _ _ hmem => absurd hmem (by simp [sweep])⟩
  | succ n ih =>
    obtain ⟨hset, hclose, hkeep⟩ := sweepSlot_right io now h
      (castSucc_ne_listener (wrapPos checkpos))
    obtain ⟨hset', hclose'⟩ := ih (wrapPos checkpos).succ hset
    refine ⟨hset', fun q fd o hmem => ?_⟩
    rcases List.mem_append.1 hmem with hmem | hmem
    · exact hclose q fd o hmem
    · obtain ⟨ho, hs, hfd⟩ := hclose' q fd o hmem
      have hslot := hkeep q hs
      rw [hslot] at hs hfd
      exact ⟨ho, hs, hfd⟩

/-! ## The main loop -/

/-- **No stale dispatch.**  In every run of idle sweeps and batches from a settled world, the
world is settled again after every step, an entry of a batch runs at most one callback, the one
for the mask that was registered when `epoll_wait` returned, on an open descriptor, and every
`close` is applied to an open descriptor of the slot it is done for. -/
theorem no_stale_dispatch (s : World × Slot) (h : Settled s.1) (ls : List LoopStep)
    (hls : Allowed loopStep LoopLegal ls s) :
    Throughout loopStep (LoopRight Settled) ls s := by
  refine Throughout.of_inv (fun s => Settled s.1) (fun s l hs hl => ?_) h hls
  cases l with
  | sweep now io =>
    obtain ⟨hset, hclose⟩ := sweep_right io now 100 s.2 hs
    exact ⟨_, rfl, ⟨hset, hclose⟩, hset⟩
  | batch es =>
    obtain ⟨hdistinct, hpending⟩ := hs.pending hl.1 hl.2
    have hright := batch_right hs hdistinct hpending
    obtain ⟨q, hq, hset⟩ := hright.exec_inv Settled (fun _ _ _ hr => hr.start) hs
    exact ⟨((q.1, s.2), q.2), by simp [loopStep, dispatchAll, hq], ⟨hset, hright⟩, hset⟩

/-! ## A connection, and a forgotten registration -/

lemma connected_live (hs : (World.connected.slot p).status = 1) : p = 0 := by
  by_contra h
  rw [connected_slot_of_ne h] at hs
  cases hs

lemma connected_fd : (World.connected.slot 0).fd = 5 := by
  rw [connected_slot_zero]
  rfl

lemma connected_receives : (World.connected.slot 0).callBack = .recvdata := by
  rw [connected_slot_zero]
  rfl

lemma connected_events : (World.connected.slot 0).events = epollIn := by
  rw [connected_slot_zero]
  rfl

/-- The connection makes a world of which it is the only client an established one. -/
lemma established_of_connected (hslot : ∀ p, w.slot p = World.connected.slot p)
    (hopen : w.kernel.isOpen 5 = true) (hint : w.kernel.interest 5 = some (epollIn, 0)) :
    Established w := by
  refine ⟨fun p _ hs => ?_, fun p _ q _ hs hs' _ => ?_, fun p _ hs => ?_, fun p _ hs => ?_⟩
  · rw [hslot] at hs ⊢
    rw [connected_live hs, connected_fd, hopen]
  · rw [hslot] at hs hs'
    rw [connected_live hs, connected_live hs']
  · rw [hslot] at hs ⊢
    rw [connected_live hs, connected_fd, hint, connected_events]
  · rw [hslot] at hs ⊢
    rw [connected_live hs]
    exact Or.inl ⟨connected_receives, connected_events⟩

lemma settled_connected : Settled World.connected := by
  refine ⟨established_of_connected (fun _ => rfl) ?_ ?_, fun fd m p _ hint => ?_⟩
  · rw [connected_isOpen]
    rfl
  · rw [connected_interest]
    rfl
  · rw [connected_interest] at hint
    split at hint
    · rename_i hfd
      obtain rfl : (0 : Slot) = p := congrArg Prod.snd (Option.some.inj hint)
      refine ⟨?_, connected_fd.trans hfd.symm⟩
      rw [connected_slot_zero]
      rfl
    · exact absurd hint (by simp)

/-- `EPOLLIN` is reported for slot 0, and `recv` finds the end of the stream. -/
def hangUp : EpollEvent × Io := (⟨epollIn, 0⟩, Io.still true)

lemma hangUp_legal {n : ℕ} : ∀ l ∈ List.replicate n hangUp,
    l.1.ptr ≠ listener ∧ ∀ op fd, l.2.ctl op fd = true := by
  intro l hl
  rw [List.eq_of_mem_replicate hl]
  exact ⟨by decide, fun _ _ => rfl⟩

theorem no_stale_dispatch_connected :
    Throughout loopStep (LoopRight Settled) [.batch [hangUp]] (World.connected, 0) := by
  refine no_stale_dispatch (World.connected, 0) settled_connected _ ?_
  have hint : World.connected.kernel.interest 5 = some (epollIn, 0) := by
    rw [connected_interest]
    rfl
  exact allowed_cons.2 ⟨⟨Kernel.waitReturns_singleton hint (by decide), hangUp_legal (n := 1)⟩,
    fun _ _ => allowed_nil _ _⟩

/-- Descriptor 7 is still registered under slot 0, which now holds the connection of
descriptor 5.  Two accepts lead here if both fill slot 0. -/
def World.orphaned : World :=
  World.connected.setKernel
    ((World.connected.kernel.opened 7).epollCtl true .add 7 (epollIn, 0)).2

lemma orphaned_isOpen : World.orphaned.kernel.isOpen 5 = true := by
  simp [World.orphaned, connected_isOpen]

lemma orphaned_interest (fd : ℤ) : World.orphaned.kernel.interest fd =
    if fd = 7 then some (epollIn, 0) else World.connected.kernel.interest fd := by
  by_cases h : fd = 7
  · subst h
    rw [World.orphaned, setKernel_kernel, Kernel.epollCtl_add_interest]
    simp [connected_interest]
  · rw [World.orphaned, setKernel_kernel, Kernel.epollCtl_interest_of_ne h, if_neg h]
    rfl

/-- The callback closes the descriptor in the slot, whether it is open or not. -/
lemma dispatch_hangUp (hcb : (w.slot 0).callBack = .recvdata)
    (hev : (w.slot 0).events = epollIn) :
    ∃ r : World × List Act, dispatch hangUp w = some (r.1, .callback 0 .recvdata (w.slot 0).fd
      (w.kernel.isOpen (w.slot 0).fd) :: r.2) ∧ Dropped 0 w r.1 := by
  have hbits : Reportable (w.slot hangUp.1.ptr).events hangUp.1.events := by
    show Reportable (w.slot 0).events epollIn
    rw [hev]
    decide
  rcases dispatch_cases hangUp.2 (Or.inl ⟨hcb, hev⟩) hbits with ⟨hno, -⟩ | ⟨r, -, hcase, hr⟩
  · change epollIn.has (w.slot 0).events = false at hno
    rw [hev] at hno
    cases hno
  · refine ⟨r, by rw [← hcb]; exact hr, ?_⟩
    rcases hcase with ⟨_, _, _, _, hrecv, _⟩ | ⟨hcb', _⟩ | ⟨_, hslot, _⟩
    · exact absurd hrecv (by simp [hangUp, Io.still])
    · cases (hcb.symm.trans hcb')
    · exact hslot

/-- The client of descriptor 5 hangs up, and descriptor 7 reports something in the same batch:
`recvdata` is run once more on the slot, after its descriptor has been closed. -/
theorem stale_dispatch :
    ¬ ∀ (s : World × Slot) (ls : List LoopStep), Established s.1 →
      Allowed loopStep LoopLegal ls s → Throughout loopStep (LoopRight Established) ls s := by
  intro h
  have hstart : Established World.orphaned :=
    established_of_connected (fun _ => rfl) orphaned_isOpen (by
      rw [orphaned_interest, connected_interest]
      rfl)
  have hlegal : Allowed loopStep LoopLegal [.batch [hangUp, hangUp]] (World.orphaned, 0) := by
    refine allowed_cons.2 ⟨⟨⟨[5, 7], by simp, .cons ⟨epollIn, ?_, by decide⟩
      (.cons ⟨epollIn, ?_, by decide⟩ .nil)⟩, ?_⟩, fun _ _ => allowed_nil _ _⟩
    · rw [orphaned_interest, connected_interest]
      rfl
    · rw [orphaned_interest]
      rfl
    · exact hangUp_legal (n := 2)
  obtain ⟨-, -, ⟨-, r, hr, -, r', hr', hright, -⟩, -⟩ := h _ _ hstart hlegal
  obtain ⟨q, hq, hd⟩ := dispatch_hangUp (w := World.orphaned) connected_receives connected_events
  obtain rfl := Option.some.inj (hr.symm.trans hq)
  -- the slot still asks for `EPOLLIN`
  have hcb : (q.1.slot 0).callBack = .recvdata := by
    rw [hd.slot_self]
    exact connected_receives
  have hev : (q.1.slot 0).events = epollIn := by
    rw [hd.slot_self]
    exact connected_events
  have hclosed : q.1.kernel.isOpen (q.1.slot 0).fd = false := by
    rw [hd.isOpen, hd.slot_self, Function.update_self]
  obtain ⟨q', hq', -⟩ := dispatch_hangUp hcb hev
  obtain rfl := Option.some.inj (hr'.symm.trans hq')
  obtain ⟨-, hopen, -⟩ := hright.fresh _ _ _ _ List.mem_cons_self
  cases (hclosed.symm.trans hopen)

end LibeventLearn.Reactor
