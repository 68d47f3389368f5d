import LibeventLearn.Lib.Independent
import LibeventLearn.Reactor.Dispatch
import Mathlib.Data.Set.Insert

/-!
# The order within a batch

The dispatch of an entry reads and writes its own slot and its own descriptor, and nothing
else.  The entries of a batch belong to different slots, which hold different descriptors, so
they are independent steps, and `epoll_wait` may return them in any order.
-/

namespace LibeventLearn.Reactor

open Lib Epoll

variable {io : Io} {p : Slot} {w w₁ w₂ : World} {r₁ r₂ : World × List Act}

/-! ## The cells of the world -/

/-- What a cell holds: a slot, or whether a descriptor is open and how it is registered. -/
def Cell : Slot ⊕ ℤ → Type
  | .inl _ => MyEvent
  | .inr _ => Bool × Option (Mask × Slot)

/-- The world, cell by cell. -/
def World.view (w : World) : ∀ i, Cell i
  | .inl p => w.slot p
  | .inr fd => (w.kernel.isOpen fd, w.kernel.interest fd)

lemma view_injective : Function.Injective World.view := by
  intro w w' h
  have hfd : ∀ fd, (w.kernel.isOpen fd, w.kernel.interest fd) =
      (w'.kernel.isOpen fd, w'.kernel.interest fd) := fun fd => congrFun h (.inr fd)
  refine World.ext (SlotTable.ext (funext fun p => ?_))
    (Kernel.ext (funext fun fd => ?_) (funext fun fd => ?_))
  · exact congrFun h (.inl p)
  · exact congrArg Prod.fst (hfd fd)
  · exact congrArg Prod.snd (hfd fd)

/-- The cells of an entry, the descriptors being those of the world `w₀`. -/
def foot (w₀ : World) (l : EpollEvent × Io) : Set (Slot ⊕ ℤ) :=
  {.inl l.1.ptr, .inr (w₀.slot l.1.ptr).fd}

/-- The entry is that of a monitored connection, with bits that may be reported for it. -/
structure Enabled (w₀ w : World) (l : EpollEvent × Io) : Prop where
  fd_eq : (w.slot l.1.ptr).fd = (w₀.slot l.1.ptr).fd
  paired : (w.slot l.1.ptr).Paired
  bits : Reportable (w.slot l.1.ptr).events l.1.events

/-! ## The dispatch of one entry is confined to its cells -/

/-- Two worlds agree on the slot `p` and on its descriptor. -/
structure Agree (p : Slot) (w₁ w₂ : World) : Prop where
  slot : w₁.slot p = w₂.slot p
  isOpen : w₁.kernel.isOpen (w₂.slot p).fd = w₂.kernel.isOpen (w₂.slot p).fd
  interest : w₁.kernel.interest (w₂.slot p).fd = w₂.kernel.interest (w₂.slot p).fd

lemma agree_of_view {fd : ℤ} (hfd : (w₁.slot p).fd = fd)
    (h : ∀ i ∈ ({.inl p, .inr fd} : Set (Slot ⊕ ℤ)), w₁.view i = w₂.view i) : Agree p w₁ w₂ := by
  have hslot : w₁.slot p = w₂.slot p := h (.inl p) (Set.mem_insert _ _)
  have hcell : (w₁.kernel.isOpen fd, w₁.kernel.interest fd) =
      (w₂.kernel.isOpen fd, w₂.kernel.interest fd) :=
    h (.inr fd) (Set.mem_insert_of_mem _ rfl)
  rw [hslot] at hfd
  subst hfd
  exact ⟨hslot, congrArg Prod.fst hcell, congrArg Prod.snd hcell⟩

lemma Agree.view {fd : ℤ} (hfd : (w₁.slot p).fd = fd) (h : Agree p w₁ w₂) :
    ∀ i ∈ ({.inl p, .inr fd} : Set (Slot ⊕ ℤ)), w₁.view i = w₂.view i := by
  rw [h.slot] at hfd
  subst hfd
  rintro i (rfl | rfl)
  · exact h.slot
  · exact Prod.ext h.isOpen h.interest

lemma Agree.rearmed {cb : Callback} {m : Mask} {g : MyEvent → MyEvent} {w₁' w₂' : World}
    (h : Agree p w₁ w₂) (h₁ : Rearmed io p cb m g w₁ w₁') (h₂ : Rearmed io p cb m g w₂ w₂') :
    Agree p w₁' w₂' := by
  have hslot : w₁'.slot p = w₂'.slot p := by rw [h₁.slot_self, h₂.slot_self, h.slot]
  have hfd : (w₂'.slot p).fd = (w₂.slot p).fd := by
    rw [h₂.slot_self]
    rfl
  have hint := h₁.interest_self
  rw [h.slot] at hint
  refine ⟨hslot, ?_, ?_⟩
  · rw [hfd, h₁.isOpen, h₂.isOpen, h.isOpen]
  · have hdel : interestDel io p w₁ = interestDel io p w₂ := by
      rw [interestDel, interestDel, h.slot, h.interest]
    rw [hfd, hint, h₂.interest_self, interestRearm, interestRearm, hdel, h.slot, h.isOpen]

lemma Agree.dropped {w₁' w₂' : World} (h : Agree p w₁ w₂) (h₁ : Dropped p w₁ w₁')
    (h₂ : Dropped p w₂ w₂') : Agree p w₁' w₂' := by
  have hfd : (w₂'.slot p).fd = (w₂.slot p).fd := by rw [h₂.slot_self]
  refine ⟨by rw [h₁.slot_self, h₂.slot_self, h.slot], ?_, ?_⟩
  · rw [hfd, h₁.isOpen, h₂.isOpen, h.slot, Function.update_self, Function.update_self]
  · rw [hfd, h₁.interest, h₂.interest, h.slot, Function.update_self, Function.update_self]

/-- What a callback does depends on its slot and descriptor only. -/
lemma Agree.callback (h : Agree p w₁ w₂) (h₁ : CallbackCase p io w₁ r₁)
    (h₂ : CallbackCase p io w₂ r₂) : Agree p r₁.1 r₂.1 ∧ r₁.2 = r₂.2 := by
  rcases h₁ with ⟨bytes, hpos, hle, hcb, hrecv, hslot, hact⟩ | ⟨hcb, hpos, hslot, hact⟩ |
    ⟨hcause, hslot, hact⟩ <;>
  rcases h₂ with ⟨bytes', hpos', hle', hcb', hrecv', hslot', hact'⟩ |
    ⟨hcb', hpos', hslot', hact'⟩ | ⟨hcause', hslot', hact'⟩
  · rw [h.slot, hrecv'] at hrecv
    injection hrecv with hbytes
    subst hbytes
    exact ⟨h.rearmed hslot hslot', by rw [hact, hact', h.slot]⟩
  · rw [h.slot, hcb'] at hcb
    cases hcb
  · rw [h.slot] at hcb hrecv
    simp [hcb, hrecv] at hcause'
  · rw [h.slot, hcb'] at hcb
    cases hcb
  · exact ⟨h.rearmed hslot hslot', by rw [hact, hact', h.slot]⟩
  · rw [h.slot] at hcb hpos
    simp [hcb, not_le.2 hpos] at hcause'
  · rw [h.slot] at hcause
    simp [hcb', hrecv'] at hcause
  · rw [h.slot] at hcause
    simp [hcb', not_le.2 hpos'] at hcause
  · refine ⟨h.dropped hslot hslot', ?_⟩
    rw [hact, hact', h.slot, h.isOpen]

/-- **The dispatch loop, entry by entry.** -/
lemma confined_dispatch (w₀ : World) :
    Confined dispatch World.view (Enabled w₀) (foot w₀) where
  defined := by
    rintro w ⟨e, io⟩ h
    rcases dispatch_cases io h.paired h.bits with ⟨-, hr⟩ | ⟨r, -, -, hr⟩
    · exact ⟨_, hr⟩
    · exact ⟨_, hr⟩
  enabled := by
    rintro w w' l ⟨hfd, hpaired, hbits⟩ hview
    have hslot := (agree_of_view hfd hview).slot
    rw [hslot] at hfd hpaired hbits
    exact ⟨hfd, hpaired, hbits⟩
  frame := by
    rintro w ⟨e, io⟩ r h hr i hi
    have hu : Untouched e.ptr w r.1 := by
      rcases dispatch_cases io h.paired h.bits with ⟨-, hr'⟩ | ⟨q, -, hcase, hr'⟩
      · obtain rfl := Option.some.inj (hr.symm.trans hr')
        exact ⟨fun _ _ => rfl, fun _ _ => rfl, fun _ _ => rfl⟩
      · obtain rfl := Option.some.inj (hr.symm.trans hr')
        exact hcase.untouched
    simp only [foot, Set.mem_insert_iff, Set.mem_singleton_iff, not_or] at hi
    cases i with
    | inl q => exact hu.slot q fun heq => hi.1 (by rw [heq])
    | inr fd =>
      have hne : fd ≠ (w.slot e.ptr).fd := fun heq => hi.2 (by rw [heq, h.fd_eq])
      exact Prod.ext (hu.isOpen fd hne) (hu.interest fd hne)
  inside := by
    rintro w₁ w₂ ⟨e, io⟩ r₁ r₂ h hview hr₁ hr₂
    have hagree := agree_of_view h.fd_eq hview
    have hpaired : (w₂.slot e.ptr).Paired := hagree.slot ▸ h.paired
    have hbits : Reportable (w₂.slot e.ptr).events e.events := hagree.slot ▸ h.bits
    suffices hsuff : Agree e.ptr r₁.1 r₂.1 ∧ r₁.2 = r₂.2 ∧
        (r₁.1.slot e.ptr).fd = (w₁.slot e.ptr).fd from
      ⟨hsuff.1.view (hsuff.2.2.trans h.fd_eq), hsuff.2.1⟩
    rcases dispatch_cases io h.paired h.bits with ⟨hno, hr₁'⟩ | ⟨q₁, hyes, hcase₁, hr₁'⟩ <;>
    rcases dispatch_cases io hpaired hbits with ⟨hno', hr₂'⟩ | ⟨q₂, hyes', hcase₂, hr₂'⟩
    all_goals
      obtain rfl := Option.some.inj (hr₁.symm.trans hr₁')
      obtain rfl := Option.some.inj (hr₂.symm.trans hr₂')
    · exact ⟨hagree, rfl, rfl⟩
    · rw [hagree.slot, hyes'] at hno
      cases hno
    · rw [hagree.slot, hno'] at hyes
      cases hyes
    · obtain ⟨hagree', hacts⟩ := hagree.callback hcase₁ hcase₂
      refine ⟨hagree', ?_, hcase₁.fd_eq⟩
      show _ :: q₁.2 = _ :: q₂.2
      rw [hacts, hagree.slot, hagree.isOpen]

/-! ## The batch -/

/-- The bytes sent on a descriptor. -/
def sentOn (fd : ℤ) (h : List Act) : List UInt8 :=
  h.flatMap fun a => match a with
    | .send _ fd' bytes => if fd' = fd then bytes else []
    | _ => []

lemma sentOn_flatMap {fd : ℤ} {L : Type*} (ls : List L) (f : L → List Act) :
    sentOn fd (ls.flatMap f) = ls.flatMap fun l => sentOn fd (f l) :=
  List.flatMap_assoc

/-- A callback sends on the descriptor of its slot. -/
lemma sentOn_dispatch {fd : ℤ} {l : EpollEvent × Io} (h : Enabled w w l)
    (hfd : (w.slot l.1.ptr).fd ≠ fd) : sentOn fd (outputs dispatch w l) = [] := by
  obtain ⟨e, io⟩ := l
  rcases dispatch_cases io h.paired h.bits with ⟨-, hr⟩ | ⟨r, -, hcase, hr⟩
  · rw [outputs_of_eq hr]
    rfl
  · rw [outputs_of_eq hr]
    rcases hcase with ⟨_, _, _, _, _, _, hact⟩ | ⟨_, _, _, hact⟩ | ⟨_, _, hact⟩
    · simp [sentOn, hact]
    · simp [sentOn, hact, hfd]
    · simp [sentOn, hact]

/-- **Batch order independence.**  In a world in which every monitored client slot has a
registered open descriptor of its own and a callback that goes with its mask, the entries of a
batch of different clients may be dispatched in any order: the slots, the interest set, the
open descriptors and the bytes sent on each descriptor are the same. -/
theorem dispatch_order (w : World) (h : Established w) (io : Io) (es es' : List EpollEvent)
    (hperm : es.Perm es') (hdistinct : es.Pairwise fun e e' => e.ptr ≠ e'.ptr)
    (hes : ∀ e ∈ es, e.ptr ≠ listener ∧ (w.slot e.ptr).status = 1 ∧
      Reportable (w.slot e.ptr).events e.events) :
    ∃ q q', dispatchAll (es.map (·, io)) w = some q ∧
      dispatchAll (es'.map (·, io)) w = some q' ∧ q.1 = q'.1 ∧
      ∀ fd, sentOn fd q.2 = sentOn fd q'.2 := by
  have hen : ∀ l ∈ es.map (·, io), Enabled w w l := by
    rw [List.forall_mem_map]
    intro e he
    obtain ⟨hclient, hlive, hbits⟩ := hes e he
    exact ⟨rfl, h.paired e.ptr hclient hlive, hbits⟩
  -- different slots hold different descriptors
  have hfds : es.Pairwise fun e e' => (w.slot e.ptr).fd ≠ (w.slot e'.ptr).fd := by
    refine hdistinct.imp_of_mem fun he he' hne heq => hne ?_
    obtain ⟨hclient, hlive, -⟩ := hes _ he
    obtain ⟨hclient', hlive', -⟩ := hes _ he'
    exact h.fd_inj _ hclient _ hclient' hlive hlive' heq
  have hpw : (es.map (·, io)).Pairwise fun l l' => Disjoint (foot w l) (foot w l') := by
    refine List.pairwise_map.2 ((hdistinct.and hfds).imp fun ⟨hne, hfd⟩ => ?_)
    simp [foot, hne.symm, hfd.symm]
  obtain ⟨q, q', hq, hq', hworld, hout, hout'⟩ :=
    (confined_dispatch w).exec_perm view_injective (hperm.map (·, io)) hpw hen
  refine ⟨q, q', hq, hq', hworld, fun fd => ?_⟩
  rw [hout, hout', sentOn_flatMap, sentOn_flatMap]
  refine flatMap_eq_of_perm (hperm.map (·, io)) (List.pairwise_map.2 ?_)
  refine hfds.imp_of_mem fun {e e'} he he' hne => ?_
  by_cases hfd : (w.slot e.ptr).fd = fd
  · refine Or.inr (sentOn_dispatch (hen _ (List.mem_map_of_mem he')) ?_)
    rw [← hfd]
    exact hne.symm
  · exact Or.inl (sentOn_dispatch (hen _ (List.mem_map_of_mem he)) hfd)

/-! ## A batch of two clients -/

/-- The descriptor `cfd` is accepted into the slot `p`. -/
def World.accepted (cfd : ℤ) (p : Slot) (w : World) : World :=
  eventAdd (Io.still true) epollIn p
    ((w.setKernel (w.kernel.opened cfd)).modify p (eventSet cfd .recvdata p 0) keepsArg_eventSet)

lemma accepted_slot_self {cfd : ℤ} {p : Slot} {w : World} :
    (w.accepted cfd p).slot p = (eventSet cfd .recvdata p 0 (w.slot p)).monitor epollIn := by
  rw [World.accepted, eventAdd_slot_self, modify_slot_self, setKernel_slot]

lemma accepted_slot_of_ne {cfd : ℤ} {p q : Slot} {w : World} (h : q ≠ p) :
    (w.accepted cfd p).slot q = w.slot q := by
  rw [World.accepted, eventAdd_slot_of_ne h, modify_slot_of_ne h, setKernel_slot]

lemma accepted_isOpen {cfd : ℤ} {p : Slot} {w : World} :
    (w.accepted cfd p).kernel.isOpen = Function.update w.kernel.isOpen cfd true := by
  rw [World.accepted, eventAdd_isOpen, modify_kernel, setKernel_kernel, Kernel.opened_isOpen]

lemma accepted_interest_of_ne {cfd fd : ℤ} {p : Slot} {w : World} (h : fd ≠ cfd) :
    (w.accepted cfd p).kernel.interest fd = w.kernel.interest fd := by
  rw [World.accepted, eventAdd_interest_of_ne (by rwa [modify_slot_self]), modify_kernel,
    setKernel_kernel, Kernel.opened_interest]

/-- A new descriptor is registered for its slot. -/
lemma accepted_interest_self {cfd : ℤ} {p : Slot} {w : World} (h : w.kernel.isOpen cfd = false) :
    (w.accepted cfd p).kernel.interest cfd = some (epollIn, p) := by
  have hnone : w.kernel.interest cfd = none := by
    by_contra hsome
    have hopen := w.kernel.open_of_registered cfd hsome
    rw [h] at hopen
    cases hopen
  have hadd := eventAdd_interest_self (Io.still true) epollIn (p := p)
    (w := (w.setKernel (w.kernel.opened cfd)).modify p (eventSet cfd .recvdata p 0)
      keepsArg_eventSet) (by
      rw [modify_slot_self]
      exact Int.zero_ne_one)
  rw [modify_slot_self, modify_kernel, setKernel_kernel] at hadd
  refine hadd.trans (if_pos ⟨rfl, ?_, ?_⟩)
  · rw [Kernel.opened_isOpen]
    exact Function.update_self ..
  · rw [Kernel.opened_interest]
    exact hnone

/-- Accepting a new descriptor into a free client slot leaves an established world. -/
lemma Established.accepted {cfd : ℤ} {p : Slot} {w : World} (h : Established w)
    (hfd : w.kernel.isOpen cfd = false) : Established (w.accepted cfd p) := by
  -- the other clients hold other descriptors
  have hother : ∀ q ≠ listener, (w.slot q).status = 1 → (w.slot q).fd ≠ cfd := by
    intro q hq hs heq
    have hopen := h.isOpen q hq hs
    rw [heq, hfd] at hopen
    cases hopen
  have hself : ((w.accepted cfd p).slot p).fd = cfd := by
    rw [accepted_slot_self]
    rfl
  refine ⟨fun q hq hs => ?_, fun q hq q' hq' hs hs' heq => ?_, fun q hq hs => ?_,
    fun q hq hs => ?_⟩
  · rw [accepted_isOpen]
    rcases eq_or_ne q p with rfl | hne
    · rw [hself]
      exact Function.update_self ..
    · rw [accepted_slot_of_ne hne] at hs ⊢
      rw [Function.update_of_ne (hother q hq hs)]
      exact h.isOpen q hq hs
  · rcases eq_or_ne q p with hqp | hne
    · rcases eq_or_ne q' p with hqp' | hne'
      · exact hqp.trans hqp'.symm
      · rw [accepted_slot_of_ne hne'] at hs' heq
        rw [hqp, hself] at heq
        exact absurd heq.symm (hother q' hq' hs')
    · rw [accepted_slot_of_ne hne] at hs heq
      rcases eq_or_ne q' p with hqp' | hne'
      · rw [hqp', hself] at heq
        exact absurd heq (hother q hq hs)
      · rw [accepted_slot_of_ne hne'] at hs' heq
        exact h.fd_inj q hq q' hq' hs hs' heq
  · rcases eq_or_ne q p with rfl | hne
    · rw [hself, accepted_interest_self hfd, accepted_slot_self]
      rfl
    · rw [accepted_slot_of_ne hne] at hs ⊢
      rw [accepted_interest_of_ne (hother q hq hs)]
      exact h.registered q hq hs
  · rcases eq_or_ne q p with rfl | hne
    · rw [accepted_slot_self]
      exact Or.inl ⟨rfl, rfl⟩
    · rw [accepted_slot_of_ne hne] at hs ⊢
      exact h.paired q hq hs

/-- Two clients, with the descriptors 5 and 6 in the slots 0 and 1. -/
def World.twoClients : World := World.connected.accepted 6 1

lemma established_twoClients : Established World.twoClients := by
  refine settled_connected.toEstablished.accepted ?_
  rw [connected_isOpen]
  rfl

lemma twoClients_slot_zero : World.twoClients.slot 0 = World.connected.slot 0 :=
  accepted_slot_of_ne (by decide)

/-- Both of them hang up; it does not matter whose entry comes first. -/
theorem dispatch_order_twoClients :
    ∃ q q', dispatchAll ([⟨epollIn, 0⟩, ⟨epollIn, 1⟩].map (·, Io.still true))
        World.twoClients = some q ∧
      dispatchAll ([⟨epollIn, 1⟩, ⟨epollIn, 0⟩].map (·, Io.still true))
        World.twoClients = some q' ∧
      q.1 = q'.1 ∧ ∀ fd, sentOn fd q.2 = sentOn fd q'.2 := by
  refine dispatch_order World.twoClients established_twoClients (Io.still true)
    [⟨epollIn, 0⟩, ⟨epollIn, 1⟩] [⟨epollIn, 1⟩, ⟨epollIn, 0⟩] (List.Perm.swap _ _ _)
    (List.pairwise_pair.2 (by decide)) ?_
  rw [List.forall_mem_cons, List.forall_mem_singleton]
  constructor
  · refine ⟨by decide, ?_, ?_⟩ <;> rw [twoClients_slot_zero, connected_slot_zero] <;> decide
  · refine ⟨by decide, ?_, ?_⟩ <;> rw [World.twoClients, accepted_slot_self]
    · rfl
    · decide

end LibeventLearn.Reactor
