import LibeventLearn.Reactor.MainLoop

/-!
# The server over its whole life

Connections come and go, and are swept when they are idle.  Between two steps of the loop every
monitored slot should hold an open descriptor of its own, and every open descriptor should be in
a slot, so that it can still be closed.  The functions keep all of that, whatever `epoll_ctl`
refuses, but for `acceptconn`, which keeps it exactly when its uninitialised local happens to
name a free slot.
-/

namespace LibeventLearn.Reactor

open Lib Epoll

variable {io : Io} {p q : Slot} {w w' w₀ : World} {e : EpollEvent} {lfd cfd t : ℤ}
  {l : EpollEvent × Io} {es : List (EpollEvent × Io)} {r : World × List Act}

/-! ## The state between two steps -/

/-- The server is in order: it listens, every monitored client slot has an open descriptor of its
own and a callback that goes with its mask, no open descriptor is lost, and a registration under
a client slot is that of its descriptor, for one of the two events. -/
structure Serving (lfd t : ℤ) (w : World) : Prop where
  listening : Listening (some (epollIn, listener)) lfd t w
  flag : ∀ p ≠ listener, (w.slot p).status = 0 ∨ (w.slot p).status = 1
  isOpen : ∀ p ≠ listener, (w.slot p).status = 1 → w.kernel.isOpen (w.slot p).fd = true
  fd_inj : ∀ p ≠ listener, ∀ q ≠ listener, (w.slot p).status = 1 → (w.slot q).status = 1 →
    (w.slot p).fd = (w.slot q).fd → p = q
  paired : ∀ p ≠ listener, (w.slot p).status = 1 → (w.slot p).Paired
  kept : ∀ fd, w.kernel.isOpen fd = true → fd = lfd ∨ Held fd w
  sole : ∀ fd m p, p ≠ listener → w.kernel.interest fd = some (m, p) →
    (w.slot p).status = 1 ∧ (w.slot p).fd = fd ∧ (m = epollIn ∨ m = epollOut)

/-- Where `accept` succeeds, the local of `acceptconn` names a free slot and `fcntl` succeeds. -/
def Lucky (w : World) (l : EpollEvent × Io) : Prop :=
  l.1.ptr = listener → l.1.events.has epollIn = true → l.2.accept ≠ none → FreeIndex l.2 w

/-- An entry of a client that is still to be dispatched: its slot is monitored, and the bits are
those of its registration at the time of `epoll_wait`. -/
def Awaited (w₀ w : World) (l : EpollEvent × Io) : Prop :=
  l.1.ptr ≠ listener → (w.slot l.1.ptr).status = 1 ∧
    ∃ m, w₀.kernel.interest (w.slot l.1.ptr).fd = some (m, l.1.ptr) ∧
      (m = epollIn ∨ m = epollOut) ∧ Reportable m l.1.events

/-- The monitored slots but for `p` are kept. -/
def KeepsOthers (p : Slot) (w w' : World) : Prop :=
  ∀ q ≠ p, (w.slot q).status = 1 → w'.slot q = w.slot q

/-- What is expected of the dispatch of one entry, `w₀` being the world in which `epoll_wait`
returned. -/
structure ServedEntry (lfd t : ℤ) (w₀ w : World) (l : EpollEvent × Io) (r : World × List Act) :
    Prop where
  serving : Serving lfd t r.1
  once : (r.2.filter Act.isCallback).length ≤ 1
  fresh : ∀ p cb fd o, .callback p cb fd o ∈ r.2 → p = l.1.ptr ∧ o = true ∧
    ((p = listener ∧ cb = .acceptconn ∧ fd = lfd) ∨
      ∃ m, cb.mask = some m ∧ w₀.kernel.interest fd = some (m, p))
  closes : ClosesOwn w r.2

/-- What is expected of one step of the loop. -/
def ServedStep (lfd t : ℤ) (s : World × Slot) (l : LoopStep) (r : (World × Slot) × List Act) :
    Prop :=
  Serving lfd t r.1.1 ∧
    match l with
    | .sweep _ _ => ClosesOwn s.1 r.2
    | .batch es => Throughout dispatch (ServedEntry lfd t s.1) es s.1

/-- `epoll_wait` returns entries of registered descriptors, and `accept` a descriptor that is not
open. -/
def ServerLegal (s : World × Slot) (l : LoopStep) : Prop :=
  match l with
  | .sweep _ _ => True
  | .batch es =>
    s.1.kernel.WaitReturns (es.map fun l => (l.1.events, l.1.ptr)) ∧
      Allowed dispatch FreshAccept es s.1

/-- Every accept of a batch is lucky. -/
def LoopLucky (s : World × Slot) (l : LoopStep) : Prop :=
  match l with
  | .sweep _ _ => True
  | .batch es => Allowed dispatch Lucky es s.1

/-- An entry still to come does not notice one that keeps its slot. -/
lemma Awaited.of_keepsOthers {l' : EpollEvent × Io} (h : Awaited w₀ w l')
    (hne : l.1.ptr ≠ listener → l'.1.ptr ≠ l.1.ptr) (hk : KeepsOthers l.1.ptr w w') :
    Awaited w₀ w' l' := by
  intro hp'
  obtain ⟨hlive, hreg⟩ := h hp'
  have hslot : w'.slot l'.1.ptr = w.slot l'.1.ptr := by
    refine hk _ ?_ hlive
    by_cases hp : l.1.ptr = listener
    · rw [hp]
      exact hp'
    · exact hne hp
  rw [hslot]
  exact ⟨hlive, hreg⟩

/-! ## The dispatch of an entry -/

/-- Of the two events, only the one of the registration is reported. -/
lemma eq_of_reported {m m' bits : Mask} (hm : m = epollIn ∨ m = epollOut)
    (hm' : m' = epollIn ∨ m' = epollOut) (hbits : Reportable m bits)
    (hbit : bits.has m' = true) : m = m' := by
  rcases hm with rfl | rfl <;> rcases hm' with rfl | rfl
  · rfl
  · exact absurd hbit (by rw [hbits.has_eq_false (by decide)]; decide)
  · exact absurd hbit (by rw [hbits.has_eq_false (by decide)]; decide)
  · rfl

/-- The two tests of the dispatch loop together, for a registration that may differ from the mask
in the slot: the callback is run at most once, and only for the event that is registered. -/
lemma dispatch_once {m : Mask} (io : Io) (hp : (w.slot e.ptr).Paired)
    (hm : m = epollIn ∨ m = epollOut) (hbits : Reportable m e.events) :
    (e.events.has (w.slot e.ptr).events = false ∧ dispatch (e, io) w = some (w, [])) ∨
      ∃ r, (e.events.has (w.slot e.ptr).events = true ∧ (w.slot e.ptr).events = m) ∧
        CallbackCase e.ptr io w r ∧ dispatch (e, io) w =
          some (r.1, .callback e.ptr (w.slot e.ptr).callBack (w.slot e.ptr).fd
            (w.kernel.isOpen (w.slot e.ptr).fd) :: r.2) := by
  have hmask : (w.slot e.ptr).events = epollIn ∨ (w.slot e.ptr).events = epollOut :=
    hp.imp And.right And.right
  by_cases hbit : e.events.has (w.slot e.ptr).events = true
  · right
    obtain rfl := eq_of_reported hm hmask hbits hbit
    obtain ⟨r, hcase, hr⟩ := callIf_fire io hp hbit
    refine ⟨r, ⟨hbit, rfl⟩, hcase, ?_⟩
    rcases hmask with hev | hev <;> rw [hev] at hr hbits
    · -- `EPOLLOUT` is not reported, whatever the callback does to the mask
      have hout := hbits.has_eq_false (b := epollOut) (by decide)
      rw [dispatch, hr, Option.bind_some, callIf_skip _ (fun h => ?_)]
      · simp
      · rw [hout] at h
        cases h.1
    · have hin := hbits.has_eq_false (b := epollIn) (by decide)
      rw [dispatch, callIf_skip _ (fun h => ?_), Option.bind_some, hr]
      · simp
      · rw [hin] at h
        cases h.1
  · left
    refine ⟨by simpa using hbit, ?_⟩
    have hskip : ∀ m', (m' = epollIn ∨ m' = epollOut) → callIf m' io e w = some (w, []) := by
      refine fun m' hm' => callIf_skip _ fun h => hbit ?_
      rw [hp.events_of_has hm' h.2]
      exact h.1
    rw [dispatch, hskip _ (Or.inl rfl), Option.bind_some, hskip _ (Or.inr rfl)]
    rfl

/-! ## A connection that changes or goes -/

/-- Deleting and adding leaves the new registration, none, or the old one. -/
lemma interestRearm_cases (io : Io) (m : Mask) (p : Slot) (w : World) :
    interestRearm io m p w = some (m, p) ∨ interestRearm io m p w = none ∨
      interestRearm io m p w = w.kernel.interest (w.slot p).fd := by
  unfold interestRearm
  split
  · exact Or.inl rfl
  · unfold interestDel
    split
    · exact Or.inr (Or.inl rfl)
    · exact Or.inr (Or.inr rfl)

namespace Serving

/-- A monitored client slot is in use, and does not hold the listening socket. -/
lemma fd_ne (h : Serving lfd t w) (hp : p ≠ listener) (hs : (w.slot p).status = 1) :
    (w.slot p).fd ≠ lfd := by
  rcases h.listening.clients p hp with hzero | ⟨-, hfd⟩
  · rw [hzero] at hs
    cases hs
  · exact hfd

/-- A descriptor that is not open is in no monitored slot. -/
lemma fd_ne_of_not_open (h : Serving lfd t w) (hnew : w.kernel.isOpen cfd = false)
    (hp : p ≠ listener) (hs : (w.slot p).status = 1) : (w.slot p).fd ≠ cfd := by
  rintro rfl
  have ho := h.isOpen p hp hs
  rw [hnew] at ho
  cases ho

/-- After a change at one slot that keeps its descriptor, in order there and elsewhere. -/
lemma of_untouched (h : Serving lfd t w) (hp : p ≠ listener) (hs : (w.slot p).status = 1)
    (hu : Untouched p w w') (hfd : (w'.slot p).fd = (w.slot p).fd)
    (hpaired : (w'.slot p).Paired) (hflag : (w'.slot p).status = 0 ∨ (w'.slot p).status = 1)
    (hopen : w'.kernel.isOpen (w.slot p).fd = true ↔ (w'.slot p).status = 1)
    (hint : ∀ m q, q ≠ listener → w'.kernel.interest (w.slot p).fd = some (m, q) →
      q = p ∧ (w'.slot p).status = 1 ∧ (m = epollIn ∨ m = epollOut)) :
    Serving lfd t w' := by
  -- the other monitored slots have other descriptors
  have hother : ∀ q ≠ listener, q ≠ p → (w'.slot q).status = 1 →
      (w.slot q).status = 1 ∧ (w.slot q).fd ≠ (w.slot p).fd := by
    intro q hq hqp hqs
    rw [hu.slot q hqp] at hqs
    exact ⟨hqs, fun heq => hqp (h.fd_inj q hq p hp hqs hs heq)⟩
  refine ⟨h.listening.of_untouched hp (h.fd_ne hp hs) hu hfd hpaired, fun q hq => ?_,
    fun q hq hqs => ?_, fun q hq q' hq' hqs hqs' heq => ?_, fun q hq hqs => ?_, fun fd ho => ?_,
    fun fd m q hq hi => ?_⟩
  · rcases eq_or_ne q p with rfl | hqp
    · exact hflag
    · rw [hu.slot q hqp]
      exact h.flag q hq
  · rcases eq_or_ne q p with rfl | hqp
    · rw [hfd]
      exact hopen.2 hqs
    · obtain ⟨hqs', hne⟩ := hother q hq hqp hqs
      rw [hu.slot q hqp, hu.isOpen _ hne]
      exact h.isOpen q hq hqs'
  · rcases eq_or_ne q p with rfl | hqp <;> rcases eq_or_ne q' q with rfl | hqq
    · rfl
    · rw [hu.slot q' hqq, hfd] at heq
      exact absurd heq.symm (hother q' hq' hqq hqs').2
    · rfl
    · rcases eq_or_ne q' p with rfl | hqp'
      · rw [hu.slot q hqp, hfd] at heq
        exact absurd heq (hother q hq hqp hqs).2
      · rw [hu.slot q hqp, hu.slot q' hqp'] at heq
        exact h.fd_inj q hq q' hq' (hother q hq hqp hqs).1 (hother q' hq' hqp' hqs').1 heq
  · rcases eq_or_ne q p with rfl | hqp
    · exact hpaired
    · rw [hu.slot q hqp]
      exact h.paired q hq (hother q hq hqp hqs).1
  · rcases eq_or_ne fd (w.slot p).fd with rfl | hne
    · exact Or.inr ⟨p, hp, hopen.1 ho, hfd⟩
    · rw [hu.isOpen fd hne] at ho
      refine (h.kept fd ho).imp_right ?_
      rintro ⟨q, hq, hqs, hqfd⟩
      have hqp : q ≠ p := by
        rintro rfl
        exact hne hqfd.symm
      refine ⟨q, hq, ?_, ?_⟩ <;> rw [hu.slot q hqp] <;> assumption
  · rcases eq_or_ne fd (w.slot p).fd with rfl | hne
    · obtain ⟨rfl, hlive, hm⟩ := hint m q hq hi
      exact ⟨hlive, hfd, hm⟩
    · rw [hu.interest fd hne] at hi
      obtain ⟨hqs, hqfd, hm⟩ := h.sole fd m q hq hi
      have hqp : q ≠ p := by
        rintro rfl
        exact hne hqfd.symm
      rw [hu.slot q hqp]
      exact ⟨hqs, hqfd, hm⟩

lemma rearmed (h : Serving lfd t w) (hp : p ≠ listener) (hs : (w.slot p).status = 1)
    {cb : Callback} {m : Mask} {g : MyEvent → MyEvent}
    (hm : (cb = .recvdata ∧ m = epollIn) ∨ (cb = .senddata ∧ m = epollOut))
    (hr : Rearmed io p cb m g w w') : Serving lfd t w' := by
  have hone : (w'.slot p).status = 1 := by
    rw [hr.slot_self]
    rfl
  refine h.of_untouched hp hs hr.untouched (by rw [hr.slot_self]; rfl) ?_ (Or.inr hone) ?_ ?_
  · rw [hr.slot_self]
    exact hm
  · rw [hr.isOpen]
    exact iff_of_true (h.isOpen p hp hs) hone
  · intro m' q hq hi
    rw [hr.interest_self] at hi
    rcases interestRearm_cases io m p w with heq | heq | heq
    · rw [heq] at hi
      obtain ⟨rfl, rfl⟩ := Prod.mk.inj (Option.some.inj hi)
      exact ⟨rfl, hone, hm.imp And.right And.right⟩
    · rw [heq] at hi
      cases hi
    · rw [heq] at hi
      obtain ⟨hqs, hqfd, hm'⟩ := h.sole _ m' q hq hi
      exact ⟨h.fd_inj q hq p hp hqs hs hqfd, hone, hm'⟩

lemma dropped (h : Serving lfd t w) (hp : p ≠ listener) (hs : (w.slot p).status = 1)
    (hd : Dropped p w w') : Serving lfd t w' := by
  have hzero : (w'.slot p).status = 0 := by
    rw [hd.slot_self, hs]
    rfl
  have hno : (w'.slot p).status ≠ 1 := by
    rw [hzero]
    exact Int.zero_ne_one
  refine h.of_untouched hp hs hd.untouched (by rw [hd.slot_self]) ?_ (Or.inl hzero) ?_ ?_
  · rw [hd.slot_self]
    exact h.paired p hp hs
  · rw [hd.isOpen, Function.update_self]
    exact iff_of_false Bool.false_ne_true hno
  · intro m q hq hi
    rw [hd.interest, Function.update_self] at hi
    cases hi

/-- A callback of a client. -/
lemma callback (h : Serving lfd t w) (hp : p ≠ listener) (hs : (w.slot p).status = 1)
    (hcase : CallbackCase p io w r) : Serving lfd t r.1 := by
  rcases hcase with ⟨_, _, _, _, _, hslot, _⟩ | ⟨_, _, hslot, _⟩ | ⟨_, hslot, _⟩
  · exact h.rearmed hp hs (Or.inr ⟨rfl, rfl⟩) hslot
  · exact h.rearmed hp hs (Or.inl ⟨rfl, rfl⟩) hslot
  · exact h.dropped hp hs hslot

/-! ## A connection that comes -/

/-- Putting a new descriptor into a free slot. -/
lemma admitted (h : Serving lfd t w) (hnew : w.kernel.isOpen cfd = false) (hp : p ≠ listener)
    (hfree : (w.slot p).status = 0) (hw' : Admitted io cfd p w w')
    (hlisten : Listening (some (epollIn, listener)) lfd t w') : Serving lfd t w' := by
  have hnone : w.kernel.interest cfd = none := by
    by_contra hreg
    have ho := w.kernel.open_of_registered cfd hreg
    rw [hnew] at ho
    cases ho
  have hself : (w'.slot p).status = 1 ∧ (w'.slot p).fd = cfd ∧ (w'.slot p).Paired := by
    rw [hw'.slot_self]
    exact ⟨rfl, rfl, Or.inl ⟨rfl, rfl⟩⟩
  -- a slot that is monitored before is another one, and is kept
  have hlive : ∀ q, (w.slot q).status = 1 → w'.slot q = w.slot q := by
    intro q hqs
    refine hw'.slot_of_ne q ?_
    rintro rfl
    rw [hfree] at hqs
    cases hqs
  have hother : ∀ q ≠ listener, q ≠ p → (w'.slot q).status = 1 →
      (w.slot q).status = 1 ∧ w'.slot q = w.slot q ∧ (w.slot q).fd ≠ cfd := by
    intro q hq hqp hqs
    rw [hw'.slot_of_ne q hqp] at hqs
    exact ⟨hqs, hw'.slot_of_ne q hqp, h.fd_ne_of_not_open hnew hq hqs⟩
  refine ⟨hlisten, fun q hq => ?_, fun q hq hqs => ?_, fun q hq q' hq' hqs hqs' heq => ?_,
    fun q hq hqs => ?_, fun fd ho => ?_, fun fd m q hq hi => ?_⟩
  · rcases eq_or_ne q p with rfl | hqp
    · exact Or.inr hself.1
    · rw [hw'.slot_of_ne q hqp]
      exact h.flag q hq
  · rcases eq_or_ne q p with rfl | hqp
    · rw [hself.2.1, hw'.isOpen, Function.update_self]
    · obtain ⟨hqs', hslot, hfd⟩ := hother q hq hqp hqs
      rw [hslot, hw'.isOpen, Function.update_of_ne hfd]
      exact h.isOpen q hq hqs'
  · rcases eq_or_ne q p with rfl | hqp <;> rcases eq_or_ne q' q with rfl | hqq
    · rfl
    · obtain ⟨-, hslot, hfd⟩ := hother q' hq' hqq hqs'
      rw [hslot, hself.2.1] at heq
      exact absurd heq.symm hfd
    · rfl
    · obtain ⟨hqs₁, hslot, hfd⟩ := hother q hq hqp hqs
      rcases eq_or_ne q' p with rfl | hqp'
      · rw [hslot, hself.2.1] at heq
        exact absurd heq hfd
      · obtain ⟨hqs₂, hslot', -⟩ := hother q' hq' hqp' hqs'
        rw [hslot, hslot'] at heq
        exact h.fd_inj q hq q' hq' hqs₁ hqs₂ heq
  · rcases eq_or_ne q p with rfl | hqp
    · exact hself.2.2
    · obtain ⟨hqs', hslot, -⟩ := hother q hq hqp hqs
      rw [hslot]
      exact h.paired q hq hqs'
  · rcases eq_or_ne fd cfd with rfl | hfd
    · exact Or.inr ⟨p, hp, hself.1, hself.2.1⟩
    · rw [hw'.isOpen, Function.update_of_ne hfd] at ho
      refine (h.kept fd ho).imp_right ?_
      rintro ⟨q, hq, hqs, hqfd⟩
      exact ⟨q, hq, by rwa [hlive q hqs], by rwa [hlive q hqs]⟩
  · rcases eq_or_ne fd cfd with rfl | hfd
    · rw [hw'.interest_self] at hi
      split at hi
      · obtain ⟨rfl, rfl⟩ := Prod.mk.inj (Option.some.inj hi)
        exact ⟨hself.1, hself.2.1, Or.inl rfl⟩
      · rw [hnone] at hi
        cases hi
    · rw [hw'.interest_of_ne fd hfd] at hi
      obtain ⟨hqs, hqfd, hm⟩ := h.sole fd m q hq hi
      rw [hlive q hqs]
      exact ⟨hqs, hqfd, hm⟩

/-- A descriptor that is kept open and is in no slot is lost. -/
lemma not_kept (h : Serving lfd t w) (hnew : w.kernel.isOpen cfd = false) :
    ¬ Serving lfd t (w.setKernel (w.kernel.opened cfd)) := by
  intro h'
  rcases h'.kept cfd (by simp) with rfl | ⟨q, hq, hqs, hqfd⟩
  · rw [h.listening.isOpen] at hnew
    cases hnew
  · rw [setKernel_slot] at hqs hqfd
    exact h.fd_ne_of_not_open hnew hq hqs hqfd

/-- So is the descriptor that was in a slot that is overwritten. -/
lemma not_overwritten (h : Serving lfd t w) (hnew : w.kernel.isOpen cfd = false)
    (hp : p ≠ listener) (hs : (w.slot p).status = 1) (hw' : Filled io cfd p w w') :
    ¬ Serving lfd t w' := by
  intro h'
  have hne := h.fd_ne_of_not_open hnew hp hs
  rcases h'.kept (w.slot p).fd
      (by rw [hw'.isOpen, Function.update_of_ne hne]; exact h.isOpen p hp hs) with
    heq | ⟨q, hq, hqs, hqfd⟩
  · exact h.fd_ne hp hs heq
  · rcases eq_or_ne q p with rfl | hqp
    · rw [hw'.slot_self] at hqfd
      exact hne hqfd.symm
    · rw [hw'.slot_of_ne q hqp] at hqs hqfd
      exact hqp (h.fd_inj q hq p hp hqs hs hqfd)

/-- **One accept.**  The server is in order after it exactly if it is lucky, and then no monitored
slot has changed. -/
lemma accept_iff (h : Serving lfd t w)
    (hnew : ∀ cfd, io.accept = some cfd → w.kernel.isOpen cfd = false) :
    ((∃ r, acceptStep io w = some r ∧ Serving lfd t r.1) ↔
        (io.accept ≠ none → FreeIndex io w)) ∧
      ((io.accept ≠ none → FreeIndex io w) → ∀ r, acceptStep io w = some r →
        KeepsLive w r.1) := by
  have hlisten : ∀ r, acceptStep io w = some r →
      Listening (some (epollIn, listener)) lfd t r.1 := fun r hr =>
    (h.listening.accepted hnew hr).1
  have hcase := acceptStep_cases io w
  constructor
  · constructor
    · rintro ⟨r, hr, hserving⟩ hsome
      rw [hr] at hcase
      cases hcase with
      | failed haccept => exact absurd haccept hsome
      | kept cfd haccept hin hk => exact absurd hserving (h.not_kept (hnew cfd haccept))
      | filled cfd p w' haccept hp hi hf hslot =>
        rcases h.flag p hp with hfree | hs
        · exact ⟨hf, p, hp, hi, hfree⟩
        · exact absurd hserving (h.not_overwritten (hnew cfd haccept) hp hs hslot.toFilled)
    · intro hlucky
      cases haccept : io.accept with
      | none => exact ⟨_, acceptStep_none haccept, h⟩
      | some cfd =>
        obtain ⟨hf, p, hp, hi, hfree⟩ := hlucky (by rw [haccept]; exact Option.some_ne_none _)
        obtain ⟨w', hw', hslot⟩ := acceptStep_admit w haccept hi hp hf
        exact ⟨_, hw', h.admitted (hnew cfd haccept) hp hfree hslot (hlisten _ hw')⟩
  · intro hlucky r hr p hs
    rw [hr] at hcase
    cases hcase with
    | failed haccept => rfl
    | kept cfd haccept hin hk => rfl
    | filled cfd q w' haccept hq hi hf hslot =>
      refine hslot.slot_of_ne p ?_
      rintro rfl
      obtain ⟨-, q, -, hi', hfree⟩ := hlucky (by rw [haccept]; exact Option.some_ne_none _)
      obtain rfl : p = q := Fin.ext (by omega)
      rw [hfree] at hs
      cases hs

/-! ## One entry -/

/-- An entry of a client. -/
lemma client_entry (h : Serving lfd t w) (hp : l.1.ptr ≠ listener) (hl : Awaited w₀ w l) :
    ∃ r, dispatch l w = some r ∧ ServedEntry lfd t w₀ w l r ∧ KeepsOthers l.1.ptr w r.1 := by
  obtain ⟨e, io⟩ := l
  obtain ⟨hlive, m, hreg, hm, hbits⟩ := hl hp
  have hpaired := h.paired e.ptr hp hlive
  rcases dispatch_once io hpaired hm hbits with ⟨-, hr⟩ | ⟨r, ⟨-, hev⟩, hcase, hr⟩
  · exact ⟨_, hr, ⟨h, Nat.zero_le _, by simp, fun _ _ _ hmem => absurd hmem (by simp)⟩,
      fun _ _ _ => rfl⟩
  obtain ⟨hnone, hno, hclose⟩ := hcase.acts
  have hserving : Serving lfd t r.1 := h.callback hp hlive hcase
  refine ⟨_, hr, ⟨hserving, ?_, ?_, ?_⟩, fun q hq _ => hcase.untouched.slot q hq⟩
  · rw [List.filter_cons_of_pos rfl, hnone]
    rfl
  · intro p cb fd o hmem
    rcases List.mem_cons.1 hmem with heq | hmem
    · injection heq with hp' hcb hfd ho
      subst hp' hcb hfd ho
      rw [← hev] at hreg
      exact ⟨rfl, h.isOpen _ hp hlive, Or.inr ⟨_, hpaired.mask, hreg⟩⟩
    · exact absurd hmem (hno p cb fd o)
  · intro p fd o hmem
    rcases List.mem_cons.1 hmem with heq | hmem
    · exact absurd heq (by simp)
    · obtain ⟨rfl, rfl, rfl⟩ := hclose p fd o hmem
      exact ⟨h.isOpen _ hp hlive, hlive, rfl⟩

/-- An entry of the listening socket. -/
lemma listener_entry (h : Serving lfd t w) (hp : l.1.ptr = listener)
    (hfresh : FreshAccept w l) :
    ((∃ r, dispatch l w = some r ∧ ServedEntry lfd t w₀ w l r) ↔ Lucky w l) ∧
      (Lucky w l → ∀ r, dispatch l w = some r → KeepsOthers l.1.ptr w r.1) := by
  obtain ⟨e, io⟩ := l
  obtain ⟨haccept, hkeeps⟩ := h.accept_iff (hfresh hp)
  have hlucky : Lucky w (e, io) ↔
      (e.events.has epollIn = true → io.accept ≠ none → FreeIndex io w) :=
    ⟨fun hl => hl hp, fun hl _ => hl⟩
  rw [hlucky, dispatch_listener h.listening hp hfresh]
  by_cases hin : e.events.has epollIn = true
  · simp only [hin, if_true, true_implies]
    constructor
    · rw [← haccept]
      constructor
      · rintro ⟨r, hr, hright⟩
        obtain ⟨r', hr', rfl⟩ := Option.map_eq_some_iff.1 hr
        exact ⟨r', hr', hright.serving⟩
      · rintro ⟨r, hr, hserving⟩
        have hacts : r.2 = [] ∨ ∃ cfd, r.2 = [.accept cfd] := by
          have hcase := acceptStep_cases io w
          rw [hr] at hcase
          cases hcase with
          | failed haccept => exact Or.inl rfl
          | kept cfd haccept hin hk => exact Or.inr ⟨cfd, rfl⟩
          | filled cfd p w' haccept hp hi hf hslot => exact Or.inr ⟨cfd, rfl⟩
        refine ⟨(r.1, .callback listener .acceptconn lfd true :: r.2), by rw [hr]; rfl, hserving,
          ?_, fun p cb fd o hmem => ?_, fun p fd o hmem => ?_⟩
        · rcases hacts with hacts | ⟨cfd, hacts⟩ <;> rw [hacts] <;> exact le_rfl
        · rcases List.mem_cons.1 hmem with heq | hmem
          · injection heq with hp' hcb hfd ho
            subst hp' hcb hfd ho
            exact ⟨hp.symm, rfl, Or.inl ⟨rfl, rfl, rfl⟩⟩
          · rcases hacts with hacts | ⟨cfd, hacts⟩ <;> simp [hacts] at hmem
        · rcases List.mem_cons.1 hmem with heq | hmem
          · exact absurd heq (by simp)
          · rcases hacts with hacts | ⟨cfd, hacts⟩ <;> simp [hacts] at hmem
    · intro hl' r hr q _ hs
      obtain ⟨r', hr', rfl⟩ := Option.map_eq_some_iff.1 hr
      exact hkeeps hl' r' hr' q hs
  · simp only [hin, Bool.false_eq_true, if_false, false_implies, iff_true, true_implies]
    refine ⟨⟨_, rfl, h, Nat.zero_le _, by simp, fun p fd o hmem => absurd hmem (by simp)⟩, ?_⟩
    rintro r hr q _ _
    obtain rfl := Option.some.inj hr
    rfl

/-- **One entry.**  It is served exactly if it is lucky, and then the entries still to come do not
notice it. -/
lemma entry_iff (h : Serving lfd t w) (hl : Awaited w₀ w l) (hfresh : FreshAccept w l) :
    ((∃ r, dispatch l w = some r ∧ ServedEntry lfd t w₀ w l r) ↔ Lucky w l) ∧
      (Lucky w l → ∀ r, dispatch l w = some r → KeepsOthers l.1.ptr w r.1) := by
  by_cases hp : l.1.ptr = listener
  · exact h.listener_entry hp hfresh
  · obtain ⟨r, hr, hright, hkeeps⟩ := h.client_entry hp hl
    refine ⟨iff_of_true ⟨r, hr, hright⟩ fun hptr => absurd hptr hp, ?_⟩
    rintro - r' hr'
    obtain rfl := Option.some.inj (hr.symm.trans hr')
    exact hkeeps

/-! ## One batch and one sweep -/

/-- **One batch.** -/
lemma batch_iff (h : Serving lfd t w)
    (hdistinct : es.Pairwise fun l l' => l.1.ptr ≠ listener → l'.1.ptr ≠ l.1.ptr)
    (hes : ∀ l ∈ es, Awaited w₀ w l) (hfresh : Allowed dispatch FreshAccept es w) :
    Throughout dispatch (ServedEntry lfd t w₀) es w ↔ Allowed dispatch Lucky es w := by
  induction es generalizing w with
  | nil => simp
  | cons l es ih =>
    obtain ⟨hne, hdistinct⟩ := List.pairwise_cons.1 hdistinct
    rw [List.forall_mem_cons] at hes
    obtain ⟨hiff, hkeeps⟩ := h.entry_iff hes.1 hfresh.1
    have hrest : Lucky w l → ∀ r, dispatch l w = some r → ∀ l' ∈ es, Awaited w₀ r.1 l' :=
      fun hlucky r hr l' hl' => (hes.2 l' hl').of_keepsOthers (hne l' hl') (hkeeps hlucky r hr)
    rw [throughout_cons, allowed_cons, ← hiff]
    constructor
    · rintro ⟨r, hr, hright, hthrough⟩
      refine ⟨⟨r, hr, hright⟩, fun r' hr' => ?_⟩
      obtain rfl := Option.some.inj (hr.symm.trans hr')
      have hlucky := hiff.1 ⟨r, hr, hright⟩
      exact (ih hright.serving hdistinct (hrest hlucky r hr) (hfresh.2 r hr)).1 hthrough
    · rintro ⟨⟨r, hr, hright⟩, hallowed⟩
      have hlucky := hiff.1 ⟨r, hr, hright⟩
      exact ⟨r, hr, hright, (ih hright.serving hdistinct (hrest hlucky r hr) (hfresh.2 r hr)).2
        (hallowed r hr)⟩

/-- What holds at every entry of a lucky batch. -/
lemma batch_allowed (h : Serving lfd t w)
    (hdistinct : es.Pairwise fun l l' => l.1.ptr ≠ listener → l'.1.ptr ≠ l.1.ptr)
    (hes : ∀ l ∈ es, Awaited w₀ w l) (hfresh : Allowed dispatch FreshAccept es w)
    (hlucky : Allowed dispatch Lucky es w) :
    Allowed dispatch (fun w l => Serving lfd t w ∧ Awaited w₀ w l) es w := by
  induction es generalizing w with
  | nil => trivial
  | cons l es ih =>
    obtain ⟨hne, hdistinct⟩ := List.pairwise_cons.1 hdistinct
    rw [List.forall_mem_cons] at hes
    obtain ⟨hiff, hkeeps⟩ := h.entry_iff hes.1 hfresh.1
    refine ⟨⟨h, hes.1⟩, fun r hr => ?_⟩
    obtain ⟨r', hr', hright⟩ := hiff.2 hlucky.1
    obtain rfl := Option.some.inj (hr.symm.trans hr')
    refine ih hright.serving hdistinct (fun l' hl' => ?_) (hfresh.2 r hr) (hlucky.2 r hr)
    exact (hes.2 l' hl').of_keepsOthers (hne l' hl') (hkeeps hlucky.1 r hr)

/-- What `epoll_wait` returns while the server is in order. -/
lemma awaited (h : Serving lfd t w)
    (hwait : w.kernel.WaitReturns (es.map fun l => (l.1.events, l.1.ptr))) :
    es.Pairwise (fun l l' => l.1.ptr ≠ listener → l'.1.ptr ≠ l.1.ptr) ∧
      ∀ l ∈ es, Awaited w w l := by
  obtain ⟨fds, hnodup, hall⟩ := hwait
  rw [List.forall₂_map_right_iff] at hall
  -- the descriptor of an entry of a client is the one in its slot, so no two entries share it
  suffices hsuff : (∀ l ∈ es, l.1.ptr ≠ listener → (w.slot l.1.ptr).fd ∈ fds) ∧
      es.Pairwise (fun l l' => l.1.ptr ≠ listener → l'.1.ptr ≠ l.1.ptr) ∧
      ∀ l ∈ es, Awaited w w l from hsuff.2
  induction hall with
  | nil => exact ⟨fun l hl => absurd hl List.not_mem_nil, .nil,
      fun l hl => absurd hl List.not_mem_nil⟩
  | @cons fd l fds es hl hall ih =>
    obtain ⟨m, hi, hbits⟩ := hl
    obtain ⟨hnot, hnodup⟩ := List.nodup_cons.1 hnodup
    obtain ⟨hmem, hdistinct, hes⟩ := ih hnodup
    have hsole := h.sole fd m l.1.ptr
    refine ⟨List.forall_mem_cons.2 ⟨fun hp => ?_, fun l' hl' hp => ?_⟩,
      List.pairwise_cons.2 ⟨fun l' hl' hp heq => ?_, hdistinct⟩,
      List.forall_mem_cons.2 ⟨fun hp => ?_, hes⟩⟩
    · rw [(hsole hp hi).2.1]
      exact List.mem_cons_self
    · exact List.mem_cons_of_mem _ (hmem l' hl' hp)
    · have hfd := hmem l' hl' (by rwa [heq])
      rw [heq, (hsole hp hi).2.1] at hfd
      exact hnot hfd
    · obtain ⟨hlive, hfd, hm⟩ := hsole hp hi
      exact ⟨hlive, m, by rwa [hfd], hm, hbits⟩

/-- **One sweep.** -/
lemma sweep (io : Io) (now : ℤ) (n : ℕ) (checkpos : Slot) (h : Serving lfd t w) :
    Serving lfd t (sweep io now n checkpos w).1.1 ∧
      ClosesOwn w (Reactor.sweep io now n checkpos w).2 := by
  induction n generalizing checkpos w with
  | zero => exact ⟨h, fun _ _ _ hmem => absurd hmem List.not_mem_nil⟩
  | succ n ih =>
    have hp := castSucc_ne_listener (wrapPos checkpos)
    by_cases hidle : Idle now (w.slot (wrapPos checkpos).castSucc)
    · obtain ⟨hd, hact⟩ := sweepSlot_idle io hidle
      obtain ⟨hserving, hcloses⟩ := ih (wrapPos checkpos).succ (h.dropped hp hidle.1 hd)
      refine ⟨hserving, fun q fd o hmem => ?_⟩
      rcases List.mem_append.1 hmem with hmem | hmem
      · rw [hact, List.mem_singleton] at hmem
        injection hmem with hqp hfd ho
        subst hqp hfd ho
        exact ⟨h.isOpen _ hp hidle.1, hidle.1, rfl⟩
      · obtain ⟨ho, hs, hfd⟩ := hcloses q fd o hmem
        have hqp : q ≠ (wrapPos checkpos).castSucc := by
          rintro rfl
          rw [hd.slot_self] at hs
          exact statusDel_ne _ hs
        rw [hd.slot_of_ne q hqp] at hs hfd
        exact ⟨ho, hs, hfd⟩
    · obtain ⟨hserving, hcloses⟩ := ih (wrapPos checkpos).succ h
      rw [Reactor.sweep, sweepSlot_not_idle hidle]
      exact ⟨hserving, hcloses⟩

/-- **One step of the loop.** -/
lemma step_iff {s : World × Slot} (h : Serving lfd t s.1) {l : LoopStep}
    (hl : ServerLegal s l) :
    (∃ r, loopStep l s = some r ∧ ServedStep lfd t s l r) ↔ LoopLucky s l := by
  cases l with
  | sweep now io =>
    exact iff_of_true ⟨_, rfl, h.sweep io now 100 s.2⟩ trivial
  | batch es =>
    obtain ⟨hwait, hfresh⟩ := hl
    obtain ⟨hdistinct, hes⟩ := h.awaited hwait
    refine Iff.trans ⟨?_, fun hthrough => ?_⟩ (h.batch_iff hdistinct hes hfresh)
    · rintro ⟨r, hr, -, hthrough⟩
      exact hthrough
    · obtain ⟨q, hq, hserving⟩ := hthrough.exec_inv (Serving lfd t) (fun _ _ _ hr => hr.serving) h
      exact ⟨((q.1, s.2), q.2), by simp [loopStep, dispatchAll, hq], hserving, hthrough⟩

end Serving

/-! ## The life of the server -/

/-- A lucky run is defined, and the server is in order after it. -/
lemma Serving.exec_ne_none {s : World × Slot} (h : Serving lfd t s.1) {ls : List LoopStep}
    (hls : Allowed loopStep ServerLegal ls s) (hlucky : Allowed loopStep LoopLucky ls s) :
    ∃ q, exec loopStep ls s = some q ∧ Serving lfd t q.1.1 := by
  have hthrough : Throughout loopStep (fun _ _ r => Serving lfd t r.1.1) ls s := by
    refine Throughout.of_inv (fun s => Serving lfd t s.1) (fun s l h hl => ?_) h (hls.and hlucky)
    obtain ⟨r, hr, hright⟩ := (h.step_iff hl.1).2 hl.2
    exact ⟨r, hr, hright.1, hright.1⟩
  exact hthrough.exec_inv (fun s : World × Slot => Serving lfd t s.1) (fun _ _ _ hr => hr) h

lemma started_closed (hne : cfd ≠ lfd) : (World.started io lfd).1.kernel.isOpen cfd = false := by
  rw [started_isOpen]
  exact decide_eq_false hne

lemma started_free (hp : p ≠ listener) : ((World.started io lfd).1.slot p).status = 0 := by
  rw [started_slot_of_ne hp]
  rfl

lemma serving_started (hctl : io.ctl .add lfd = true) :
    Serving lfd io.time (World.started io lfd).1 := by
  have hno : ∀ p ≠ listener, ((World.started io lfd).1.slot p).status ≠ 1 := by
    intro p hp hs
    rw [started_free hp] at hs
    cases hs
  have hlisten := listening_started io lfd
  rw [startReg_granted hctl] at hlisten
  refine ⟨hlisten, fun p hp => Or.inl (started_free hp),
    fun p hp hs => absurd hs (hno p hp), fun p hp q hq hs => absurd hs (hno p hp),
    fun p hp hs => absurd hs (hno p hp), fun fd ho => ?_, fun fd m p hp hi => ?_⟩
  · rw [started_isOpen] at ho
    exact Or.inl (of_decide_eq_true ho)
  · rw [started_interest, startReg_granted hctl] at hi
    split at hi
    · exact absurd (congrArg Prod.snd (Option.some.inj hi)).symm hp
    · exact absurd hi.symm (Option.some_ne_none _)

/-- **The server is in order for as long as it is lucky.**  Take any run of its loop, with
`epoll_ctl` answering whatever it likes once the listening socket is registered.  After every
step the server listens, the monitored slots hold open descriptors of their own and every open
descriptor is in a slot, an entry runs at most one callback, the one of the descriptor and mask
that was registered, on an open descriptor, and every `close` is applied to an open descriptor of
its slot, if and only if in every successful `accept` the uninitialised local names a free slot
and `fcntl` succeeds. -/
theorem served_iff_lucky (io : Io) (lfd : ℤ) (hctl : io.ctl .add lfd = true) (ls : List LoopStep)
    (hls : Allowed loopStep ServerLegal ls (World.started io lfd)) :
    Throughout loopStep (ServedStep lfd io.time) ls (World.started io lfd) ↔
      Allowed loopStep LoopLucky ls (World.started io lfd) := by
  refine throughout_iff_allowed (fun s => Serving lfd io.time s.1)
    (fun s l h hl => h.step_iff hl) (fun s l r h hl hlucky hr => ?_) (serving_started hctl) hls
  obtain ⟨r', hr', hright⟩ := (h.step_iff hl).2 hlucky
  obtain rfl := Option.some.inj (hr.symm.trans hr')
  exact hright.1

/-- The listening socket is ready, and `accept` returns the descriptor `cfd` while the local
holds `i`. -/
def knock (cfd i : ℤ) : EpollEvent × Io := (⟨epollIn, listener⟩, Io.accepting cfd i)

lemma Serving.knock_legal {s : World × Slot} (h : Serving lfd t s.1) (i : ℤ)
    (hnew : s.1.kernel.isOpen cfd = false) : ServerLegal s (.batch [knock cfd i]) := by
  have hbits : Reportable epollIn epollIn := by decide
  refine ⟨Kernel.waitReturns_singleton h.listening.interest hbits,
    allowed_cons.2 ⟨fun _ cfd' hcfd => ?_, fun _ _ => allowed_nil _ _⟩⟩
  obtain rfl : cfd = cfd' := Option.some.inj hcfd
  exact hnew

lemma knock_lucky {s : World × Slot} (hp : p ≠ listener) (hfree : (s.1.slot p).status = 0) :
    LoopLucky s (.batch [knock cfd p.val]) :=
  allowed_cons.2 ⟨fun _ _ _ => ⟨le_rfl, p, hp, rfl, hfree⟩, fun _ _ => allowed_nil _ _⟩

lemma zero_ne_listener : (0 : Slot) ≠ listener := by decide

theorem served_iff_lucky_knock :
    Throughout loopStep (ServedStep 4 0) [.batch [knock 5 0]]
      (World.started (Io.still true) 4) := by
  refine (served_iff_lucky (Io.still true) 4 rfl _ ?_).2 ?_
  · exact ⟨(serving_started rfl).knock_legal 0 (started_closed (by decide)), fun _ _ => trivial⟩
  · exact ⟨knock_lucky zero_ne_listener (started_free zero_ne_listener), fun _ _ => trivial⟩

end LibeventLearn.Reactor
