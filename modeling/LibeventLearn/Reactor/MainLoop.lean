import LibeventLearn.Reactor.Accept
import LibeventLearn.Reactor.Dispatch

/-!
# The loop of `main`

`main` goes through the idle sweep, `epoll_wait` and the dispatch of what it returned until
`epoll_wait` fails.  This file puts the parts together, and follows the listening socket through
every run of the loop.  Whatever slot `acceptconn` fills, and whatever the kernel grants or
refuses, no function touches the slot of the listening socket or its descriptor.
-/

namespace LibeventLearn.Reactor

open Lib Epoll

variable {io : Io} {p q : Slot} {m : Mask} {w w' : World} {e : EpollEvent} {lfd cfd t : ℤ}
  {reg : Option (Mask × Slot)}

/-! ## `main` -/

/-- One pass of `while (1)`: the clock and the environment of the sweep, and what `epoll_wait`
returns, or its failure. -/
structure Pass where
  now : ℤ
  io : Io
  wait : Option (List (EpollEvent × Io))

/-- The loop of `main`, for the given passes or until `epoll_wait` fails. -/
def mainLoop : List Pass → World × Slot → Option ((World × Slot) × List Act)
  | [], s => some (s, [])
  | l :: ls, s =>
    let r := sweep l.io l.now 100 s.2 s.1
    match l.wait with
    | none => some r
    | some es =>
      (dispatchAll es r.1.1).bind fun q =>
        (mainLoop ls (q.1, r.1.2)).map fun q' => (q'.1, r.2 ++ (q.2 ++ q'.2))

/-- The world and `checkpos` at the head of the loop, `socket` having returned `lfd`. -/
def World.started (io : Io) (lfd : ℤ) : World × Slot :=
  (initlistensocket io lfd World.initial, 0)

/-- `main`. -/
def main (io : Io) (lfd : ℤ) (ls : List Pass) : Option ((World × Slot) × List Act) :=
  mainLoop ls (World.started io lfd)

/-- The steps that the passes consist of. -/
def loopSteps : List Pass → List LoopStep
  | [] => []
  | l :: ls =>
    .sweep l.now l.io ::
      match l.wait with
      | none => []
      | some es => .batch es :: loopSteps ls

/-- The loop is a run of its steps. -/
lemma mainLoop_eq_exec (ls : List Pass) (s : World × Slot) :
    mainLoop ls s = exec loopStep (loopSteps ls) s := by
  induction ls generalizing s with
  | nil => rfl
  | cons l ls ih =>
    have hsweep : loopStep (.sweep l.now l.io) s = some (sweep l.io l.now 100 s.2 s.1) := rfl
    rw [mainLoop, loopSteps, exec_cons, hsweep, Option.bind_some]
    generalize sweep l.io l.now 100 s.2 s.1 = r
    cases l.wait with
    | none => simp
    | some es =>
      simp only [exec_cons, loopStep]
      cases dispatchAll es r.1.1 with
      | none => rfl
      | some q =>
        simp only [Option.bind_some, Option.map_some, ih, Option.map_map]
        rfl

/-! ## The dispatch of any entry -/

lemma epollIn_has_epollOut : epollIn.has epollOut = false := by decide

/-- A test of the dispatch loop that fails. -/
lemma callIf_skip (io : Io) (h : ¬ (e.events.has m = true ∧ (w.slot e.ptr).events.has m = true)) :
    callIf m io e w = some (w, []) := by
  rw [callIf, if_neg h]

/-- One that succeeds, on a slot in use. -/
lemma callIf_fire (io : Io) (hp : (w.slot e.ptr).Paired)
    (hbit : e.events.has (w.slot e.ptr).events = true) :
    ∃ r, CallbackCase e.ptr io w r ∧
      callIf (w.slot e.ptr).events io e w =
        some (r.1, .callback e.ptr (w.slot e.ptr).callBack (w.slot e.ptr).fd
          (w.kernel.isOpen (w.slot e.ptr).fd) :: r.2) := by
  obtain ⟨r, hr, hcase⟩ := invoke_cases io e.events (hp.imp And.left And.left)
  have hask : (w.slot e.ptr).events.has (w.slot e.ptr).events = true := by
    rcases hp with ⟨-, hev⟩ | ⟨-, hev⟩ <;> rw [hev] <;> decide
  refine ⟨r, hcase, ?_⟩
  rw [callIf, if_pos ⟨hbit, hask⟩, hr]
  rfl

/-- A slot asks for the event of its callback only. -/
lemma MyEvent.Paired.events_of_has {ev : MyEvent} (h : ev.Paired)
    (hm : m = epollIn ∨ m = epollOut) (hbit : ev.events.has m = true) : ev.events = m := by
  rcases h with ⟨-, hev⟩ | ⟨-, hev⟩ <;> rcases hm with rfl | rfl <;> rw [hev] at hbit ⊢ <;>
    exact absurd hbit (by decide)

/-- A slot that has never been used asks for nothing. -/
lemma callIf_zero (m : Mask) (io : Io) (hp : w.slot e.ptr = MyEvent.zero) :
    callIf m io e w = some (w, []) := by
  refine callIf_skip io ?_
  rintro ⟨-, h⟩
  rw [hp] at h
  simp [Mask.has, MyEvent.zero] at h

lemma CallbackCase.paired {r : World × List Act} (h : CallbackCase p io w r)
    (hp : (w.slot p).Paired) : (r.1.slot p).Paired := by
  rcases h with ⟨_, _, _, _, _, hslot, _⟩ | ⟨_, _, hslot, _⟩ | ⟨_, hslot, _⟩
  · rw [hslot.slot_self]
    exact Or.inr ⟨rfl, rfl⟩
  · rw [hslot.slot_self]
    exact Or.inl ⟨rfl, rfl⟩
  · rw [hslot.slot_self]
    exact hp

/-! ## The ways of `acceptconn` -/

/-- The effect of putting an accepted descriptor into the slot `p`, on the interest set as well. -/
structure Admitted (io : Io) (cfd : ℤ) (p : Slot) (w w' : World) : Prop
    extends Filled io cfd p w w' where
  interest_self : w'.kernel.interest cfd =
    if io.ctl .add cfd = true ∧ w.kernel.interest cfd = none then some (epollIn, p)
    else w.kernel.interest cfd
  interest_of_ne : ∀ fd ≠ cfd, w'.kernel.interest fd = w.kernel.interest fd

/-- The ways a call of `acceptconn` can go. -/
inductive AcceptCase (io : Io) (w : World) : Option (World × List Act) → Prop
  | failed (haccept : io.accept = none) : AcceptCase io w (some (w, []))
  | kept (cfd : ℤ) (haccept : io.accept = some cfd)
      (hin : 0 ≤ io.uninit ∧ io.uninit ≤ maxEvents)
      (hk : io.uninit = maxEvents ∨ io.fcntl < 0) :
      AcceptCase io w (some (w.setKernel (w.kernel.opened cfd), [.accept cfd]))
  | filled (cfd : ℤ) (p : Slot) (w' : World) (haccept : io.accept = some cfd)
      (hp : p ≠ listener) (hi : io.uninit = p.val) (hf : 0 ≤ io.fcntl)
      (hslot : Admitted io cfd p w w') : AcceptCase io w (some (w', [.accept cfd]))
  | outside (haccept : io.accept ≠ none)
      (hout : ¬ (0 ≤ io.uninit ∧ io.uninit ≤ maxEvents)) : AcceptCase io w none

/-- The slot named by the local is filled, and its descriptor handed to the kernel. -/
lemma acceptStep_admit (w : World) (h : io.accept = some cfd) (hi : io.uninit = p.val)
    (hp : p ≠ listener) (hf : 0 ≤ io.fcntl) :
    ∃ w', acceptStep io w = some (w', [.accept cfd]) ∧ Admitted io cfd p w w' := by
  obtain ⟨w', hw', hfilled⟩ := acceptStep_fill w h hi hp hf
  refine ⟨w', hw', hfilled, ?_, fun fd hfd => ?_⟩
  all_goals
    simp only [acceptStep, acceptconn, h, hi, if_neg (index_ne_maxEvents hp),
      if_neg (not_lt.2 hf), slotAt_val, Option.map_some] at hw'
    obtain ⟨rfl, -⟩ := Prod.mk.inj (Option.some.inj hw')
  · have hfd : (((w.setKernel (w.kernel.opened cfd)).modify p
        (eventSet cfd .recvdata p io.time) keepsArg_eventSet).slot p).fd = cfd := by
      rw [modify_slot_self]
      rfl
    have hadd := eventAdd_interest_self io epollIn (p := p)
      (w := (w.setKernel (w.kernel.opened cfd)).modify p (eventSet cfd .recvdata p io.time)
        keepsArg_eventSet) (by
        rw [modify_slot_self]
        simp [eventSet])
    rw [hfd] at hadd
    rw [hadd]
    simp
  · rw [eventAdd_interest_of_ne (by rwa [modify_slot_self])]
    rfl

/-- Inversion of `acceptconn`. -/
theorem acceptStep_cases (io : Io) (w : World) : AcceptCase io w (acceptStep io w) := by
  cases haccept : io.accept with
  | none =>
    rw [acceptStep_none haccept]
    exact .failed haccept
  | some cfd =>
    rcases index_cases io.uninit with ⟨p, hp, hi⟩ | hi | hout
    · have hlt := p.isLt
      by_cases hf : 0 ≤ io.fcntl
      · obtain ⟨w', hw', hslot⟩ := acceptStep_admit w haccept hi hp hf
        rw [hw']
        exact .filled cfd p w' haccept hp hi hf hslot
      · rw [acceptStep_keep haccept hi (Or.inr (not_le.1 hf))]
        exact .kept cfd haccept (by omega) (Or.inr (not_le.1 hf))
    · rw [acceptStep_keep haccept hi (Or.inl rfl)]
      rw [Fin.val_last] at hi
      exact .kept cfd haccept (by omega) (Or.inl hi)
    · rw [acceptStep_outside haccept hout]
      refine .outside (by rw [haccept]; exact Option.some_ne_none _) ?_
      omega

/-! ## The listening socket -/

/-- The slot of the listening socket is as `initlistensocket` left it at the time `t`, the
socket `lfd` is open and registered as `reg` says, and no slot of a client holds it. -/
structure Listening (reg : Option (Mask × Slot)) (lfd t : ℤ) (w : World) : Prop where
  slot : w.slot listener = (eventSet lfd .acceptconn listener t MyEvent.zero).monitor epollIn
  isOpen : w.kernel.isOpen lfd = true
  interest : w.kernel.interest lfd = reg
  clients : ∀ p ≠ listener,
    w.slot p = MyEvent.zero ∨ ((w.slot p).Paired ∧ (w.slot p).fd ≠ lfd)

/-- The only callback that is run on the socket `lfd` is `acceptconn`, of the listening slot, and
nothing is received from it, sent to it, or closes it. -/
def Act.Spares (lfd : ℤ) : Act → Prop
  | .callback p cb fd _ =>
    (p = listener ∧ cb = .acceptconn ∧ fd = lfd) ∨
      (p ≠ listener ∧ cb ≠ .acceptconn ∧ fd ≠ lfd)
  | .recv _ fd _ => fd ≠ lfd
  | .send _ fd _ => fd ≠ lfd
  | .close _ fd _ => fd ≠ lfd
  | .accept fd => fd ≠ lfd

/-- `accept` returns a descriptor that is not open. -/
def FreshAccept (w : World) (l : EpollEvent × Io) : Prop :=
  l.1.ptr = listener → ∀ cfd, l.2.accept = some cfd → w.kernel.isOpen cfd = false

/-- Where `accept` succeeds, the uninitialised local of `acceptconn` is the index of a slot. -/
def InTable (_ : World) (l : EpollEvent × Io) : Prop :=
  l.1.ptr = listener → l.1.events.has epollIn = true → l.2.accept ≠ none →
    0 ≤ l.2.uninit ∧ l.2.uninit ≤ maxEvents

namespace Listening

/-- A change at the slot of a client and its descriptor is not noticed. -/
lemma of_untouched (h : Listening reg lfd t w) (hp : p ≠ listener) (hfd : (w.slot p).fd ≠ lfd)
    (hu : Untouched p w w') (hfd' : (w'.slot p).fd = (w.slot p).fd)
    (hpaired : (w'.slot p).Paired) : Listening reg lfd t w' := by
  refine ⟨?_, ?_, ?_, fun q hq => ?_⟩
  · rw [hu.slot _ hp.symm, h.slot]
  · rw [hu.isOpen _ hfd.symm, h.isOpen]
  · rw [hu.interest _ hfd.symm, h.interest]
  · rcases eq_or_ne q p with rfl | hqp
    · exact Or.inr ⟨hpaired, by rwa [hfd']⟩
    · rw [hu.slot q hqp]
      exact h.clients q hq

/-- Nor is a callback of a client. -/
lemma callback (h : Listening reg lfd t w) (hp : p ≠ listener) (hpaired : (w.slot p).Paired)
    (hfd : (w.slot p).fd ≠ lfd) {r : World × List Act} (hcase : CallbackCase p io w r) :
    Listening reg lfd t r.1 ∧ ∀ a ∈ r.2, a.Spares lfd := by
  refine ⟨h.of_untouched hp hfd hcase.untouched hcase.fd_eq (hcase.paired hpaired), ?_⟩
  rcases hcase with ⟨_, _, _, _, _, _, hact⟩ | ⟨_, _, _, hact⟩ | ⟨_, _, hact⟩
  all_goals
    rw [hact]
    intro a ha
    rw [List.mem_singleton.1 ha]
    exact hfd

/-- One of the two tests for an entry of a client. -/
lemma callIf (h : Listening reg lfd t w) (hp : e.ptr ≠ listener)
    (hm : m = epollIn ∨ m = epollOut) (io : Io) :
    ∃ r, callIf m io e w = some r ∧ Listening reg lfd t r.1 ∧ ∀ a ∈ r.2, a.Spares lfd := by
  rcases h.clients e.ptr hp with hzero | ⟨hpaired, hfd⟩
  · exact ⟨_, callIf_zero m io hzero, h, by simp⟩
  · by_cases hbit : e.events.has m = true ∧ (w.slot e.ptr).events.has m = true
    swap
    · exact ⟨_, callIf_skip io hbit, h, by simp⟩
    · obtain rfl : (w.slot e.ptr).events = m := hpaired.events_of_has hm hbit.2
      obtain ⟨r, hcase, hr⟩ := callIf_fire io hpaired hbit.1
      obtain ⟨hr₁, hspares⟩ := h.callback hp hpaired hfd hcase
      refine ⟨_, hr, hr₁, List.forall_mem_cons.2 ⟨Or.inr ⟨hp, ?_, hfd⟩, hspares⟩⟩
      rcases hpaired with ⟨hcb, -⟩ | ⟨hcb, -⟩ <;> rw [hcb] <;> decide

/-- `acceptconn` leaves the listening socket as it was. -/
lemma accepted (h : Listening reg lfd t w) (hfresh : ∀ cfd, io.accept = some cfd →
      w.kernel.isOpen cfd = false) {r : World × List Act} (hr : acceptStep io w = some r) :
    Listening reg lfd t r.1 ∧ ∀ a ∈ r.2, a.Spares lfd := by
  have hne : ∀ cfd, io.accept = some cfd → cfd ≠ lfd := by
    rintro cfd hcfd rfl
    have hclosed := hfresh cfd hcfd
    rw [h.isOpen] at hclosed
    cases hclosed
  have hcase := acceptStep_cases io w
  rw [hr] at hcase
  cases hcase with
  | failed haccept => exact ⟨h, by simp⟩
  | kept cfd haccept hin hk =>
    refine ⟨⟨h.slot, ?_, h.interest, h.clients⟩, List.forall_mem_singleton.2 (hne cfd haccept)⟩
    rw [setKernel_kernel, Kernel.opened_isOpen, Function.update_of_ne (hne cfd haccept).symm,
      h.isOpen]
  | filled cfd p w' haccept hp hi hf hslot =>
    have hcfd := hne cfd haccept
    refine ⟨⟨?_, ?_, ?_, fun q hq => ?_⟩, List.forall_mem_singleton.2 hcfd⟩
    · rw [hslot.slot_of_ne _ hp.symm, h.slot]
    · rw [hslot.isOpen, Function.update_of_ne hcfd.symm, h.isOpen]
    · rw [hslot.interest_of_ne _ hcfd.symm, h.interest]
    · rcases eq_or_ne q p with rfl | hqp
      · rw [hslot.slot_self]
        exact Or.inr ⟨Or.inl ⟨rfl, rfl⟩, hcfd⟩
      · rw [hslot.slot_of_ne q hqp]
        exact h.clients q hq

end Listening

/-- An entry of the listening socket. -/
lemma dispatch_listener (h : Listening reg lfd t w) (he : e.ptr = listener)
    (hfresh : FreshAccept w (e, io)) :
    dispatch (e, io) w =
      if e.events.has epollIn then
        (acceptStep io w).map fun r => (r.1, .callback listener .acceptconn lfd true :: r.2)
      else some (w, []) := by
  have hslot := h.slot
  -- `EPOLLOUT` is not asked for, before or after the callback
  have hout : ∀ w', Listening reg lfd t w' → callIf epollOut io e w' = some (w', []) := by
    intro w' h'
    rw [Reactor.callIf, if_neg]
    rw [he, h'.slot]
    rintro ⟨-, hno⟩
    exact absurd (epollIn_has_epollOut.symm.trans hno) (by decide)
  have hin : callIf epollIn io e w =
      if e.events.has epollIn then
        (acceptStep io w).map fun r => (r.1, .callback listener .acceptconn lfd true :: r.2)
      else some (w, []) := by
    have hfd : (w.slot listener).fd = lfd := by rw [hslot]; rfl
    have hcb : (w.slot listener).callBack = .acceptconn := by rw [hslot]; rfl
    have harg : (w.slot listener).arg = some listener := by rw [hslot]; rfl
    have hev : (w.slot listener).events = epollIn := by rw [hslot]; rfl
    simp only [Reactor.callIf, he, hev, hcb, harg, hfd, epollIn_has_epollIn, and_true, invoke,
      h.isOpen]
    rw [acceptStep, hfd]
    rfl
  rw [dispatch, hin]
  split
  · cases hr : acceptStep io w with
    | none => rfl
    | some r =>
      rw [Option.map_some, Option.bind_some, hout _ (h.accepted (hfresh he) hr).1]
      simp
  · rw [Option.bind_some, hout _ h]
    rfl

/-- **One entry.**  Nothing else than a local of `acceptconn` that is no index makes it undefined,
and it leaves the listening socket alone. -/
lemma Listening.dispatch (h : Listening reg lfd t w) {l : EpollEvent × Io}
    (hfresh : FreshAccept w l) :
    (dispatch l w ≠ none ↔ InTable w l) ∧
      ∀ r, dispatch l w = some r → Listening reg lfd t r.1 ∧ ∀ a ∈ r.2, a.Spares lfd := by
  obtain ⟨e, io⟩ := l
  by_cases he : e.ptr = listener
  · rw [dispatch_listener h he hfresh]
    split
    · rename_i hin
      constructor
      · have hcase := acceptStep_cases io w
        simp only [InTable, he, hin, true_implies, ne_eq, Option.map_eq_none_iff]
        cases hr : acceptStep io w with
        | none =>
          rw [hr] at hcase
          cases hcase with
          | outside haccept hout =>
            exact iff_of_false (fun hno => hno rfl) fun himp => hout (himp haccept)
        | some r =>
          rw [hr] at hcase
          refine iff_of_true (by simp) ?_
          cases hcase with
          | failed haccept => exact fun hno => absurd haccept hno
          | kept cfd haccept hin' hk => exact fun _ => hin'
          | filled cfd p w' haccept hp hi hf hslot =>
            have hlt := p.isLt
            exact fun _ => by omega
      · intro r hr
        obtain ⟨r', hr', rfl⟩ := Option.map_eq_some_iff.1 hr
        obtain ⟨h', hspares⟩ := h.accepted (hfresh he) hr'
        exact ⟨h', List.forall_mem_cons.2 ⟨Or.inl ⟨rfl, rfl, rfl⟩, hspares⟩⟩
    · rename_i hin
      refine ⟨iff_of_true (Option.some_ne_none _) fun _ hin' => absurd hin' hin, ?_⟩
      rintro r hr
      obtain rfl := Option.some.inj hr
      exact ⟨h, by simp⟩
  · obtain ⟨r₁, hr₁, h₁, hspares₁⟩ := h.callIf he (Or.inl rfl) io
    obtain ⟨r₂, hr₂, h₂, hspares₂⟩ := h₁.callIf he (Or.inr rfl) io
    have hr : Reactor.dispatch (e, io) w = some (r₂.1, r₁.2 ++ r₂.2) := by
      rw [Reactor.dispatch, hr₁, Option.bind_some, hr₂, Option.map_some]
    rw [hr]
    refine ⟨iff_of_true (Option.some_ne_none _) fun hptr => absurd hptr he, ?_⟩
    rintro r heq
    obtain rfl := Option.some.inj heq
    refine ⟨h₂, fun a ha => ?_⟩
    rcases List.mem_append.1 ha with ha | ha
    · exact hspares₁ a ha
    · exact hspares₂ a ha

/-! ## Runs of the loop -/

/-- In a batch, `accept` returns descriptors that are not open. -/
def LoopFresh (s : World × Slot) (l : LoopStep) : Prop :=
  match l with
  | .sweep _ _ => True
  | .batch es => Allowed dispatch FreshAccept es s.1

/-- In a batch, the local of `acceptconn` is an index whenever `accept` succeeds. -/
def LoopInTable (s : World × Slot) (l : LoopStep) : Prop :=
  match l with
  | .sweep _ _ => True
  | .batch es => Allowed dispatch InTable es s.1

/-- The sweep does not come to the listening socket. -/
lemma Listening.sweep (io : Io) (now : ℤ) (n : ℕ) (checkpos : Slot) (h : Listening reg lfd t w) :
    Listening reg lfd t (sweep io now n checkpos w).1.1 ∧
      ∀ a ∈ (Reactor.sweep io now n checkpos w).2, a.Spares lfd := by
  induction n generalizing checkpos w with
  | zero => exact ⟨h, fun a ha => absurd ha List.not_mem_nil⟩
  | succ n ih =>
    have hp := castSucc_ne_listener (wrapPos checkpos)
    obtain ⟨h', hspares⟩ : Listening reg lfd t (sweepSlot io now (wrapPos checkpos).castSucc w).1 ∧
        ∀ a ∈ (sweepSlot io now (wrapPos checkpos).castSucc w).2, a.Spares lfd := by
      by_cases hidle : Idle now (w.slot (wrapPos checkpos).castSucc)
      · obtain ⟨hd, hact⟩ := sweepSlot_idle io hidle
        rcases h.clients _ hp with hzero | ⟨hpaired, hfd⟩
        · rw [hzero] at hidle
          exact absurd hidle.1 (by show (0 : ℤ) ≠ 1; omega)
        · have hfd' := congrArg MyEvent.fd hd.slot_self
          refine ⟨h.of_untouched hp hfd hd.untouched hfd' ?_, ?_⟩
          · rw [hd.slot_self]
            exact hpaired
          · rw [hact]
            intro a ha
            rw [List.mem_singleton.1 ha]
            exact hfd
      · rw [sweepSlot_not_idle hidle]
        exact ⟨h, by simp⟩
    obtain ⟨h'', hspares'⟩ := ih (wrapPos checkpos).succ h'
    refine ⟨h'', fun a ha => ?_⟩
    rcases List.mem_append.1 ha with ha | ha
    · exact hspares a ha
    · exact hspares' a ha

/-- The dispatch loop. -/
lemma Listening.dispatchAll (h : Listening reg lfd t w) {es : List (EpollEvent × Io)}
    (hfresh : Allowed Reactor.dispatch FreshAccept es w) :
    (dispatchAll es w ≠ none ↔ Allowed Reactor.dispatch InTable es w) ∧
      ∀ r, Reactor.dispatchAll es w = some r →
        Listening reg lfd t r.1 ∧ ∀ a ∈ r.2, a.Spares lfd := by
  constructor
  · exact exec_ne_none_iff_allowed (Listening reg lfd t) (fun w l h hl => (h.dispatch hl).1)
      (fun w l r h hl hr => ((h.dispatch hl).2 r hr).1) h hfresh
  · intro r hr
    exact exec_inv_outputs (Listening reg lfd t) (fun w l r h hl hr => (h.dispatch hl).2 r hr) h
      hfresh hr

/-- One step of the loop. -/
lemma Listening.loopStep {s : World × Slot} (h : Listening reg lfd t s.1) {l : LoopStep}
    (hfresh : LoopFresh s l) :
    (loopStep l s ≠ none ↔ LoopInTable s l) ∧
      ∀ r, Reactor.loopStep l s = some r →
        Listening reg lfd t r.1.1 ∧ ∀ a ∈ r.2, a.Spares lfd := by
  cases l with
  | sweep now io =>
    refine ⟨iff_of_true (Option.some_ne_none _) trivial, fun r hr => ?_⟩
    obtain rfl : Reactor.sweep io now 100 s.2 s.1 = r := Option.some.inj hr
    exact h.sweep io now 100 s.2
  | batch es =>
    obtain ⟨hdef, hright⟩ := h.dispatchAll hfresh
    refine ⟨?_, fun r hr => ?_⟩
    · rw [Reactor.loopStep, ne_eq, Option.map_eq_none_iff]
      exact hdef
    · obtain ⟨q, hq, rfl⟩ := Option.map_eq_some_iff.1 hr
      exact hright q hq

lemma started_listener (io : Io) (lfd : ℤ) :
    (World.started io lfd).1.slot listener =
      (eventSet lfd .acceptconn listener io.time MyEvent.zero).monitor epollIn := by
  rw [World.started, initlistensocket, eventAdd_slot_self, modify_slot_self, setKernel_slot]
  rfl

lemma started_slot_of_ne (hp : p ≠ listener) :
    (World.started io lfd).1.slot p = MyEvent.zero := by
  rw [World.started, initlistensocket, eventAdd_slot_of_ne hp, modify_slot_of_ne hp,
    setKernel_slot]
  rfl

lemma started_isOpen (fd : ℤ) :
    (World.started io lfd).1.kernel.isOpen fd = decide (fd = lfd) := by
  rw [World.started, initlistensocket, eventAdd_isOpen]
  by_cases h : fd = lfd <;> simp [World.initial, Kernel.empty, h]

/-- How the listening socket is registered at first: as its `EPOLL_CTL_ADD` is answered. -/
def startReg (io : Io) (lfd : ℤ) : Option (Mask × Slot) :=
  if io.ctl .add lfd then some (epollIn, listener) else none

lemma startReg_granted (hctl : io.ctl .add lfd = true) :
    startReg io lfd = some (epollIn, listener) := if_pos hctl

lemma started_interest (io : Io) (lfd fd : ℤ) :
    (World.started io lfd).1.kernel.interest fd = if fd = lfd then startReg io lfd else none := by
  have hslot : ((World.initial.setKernel (World.initial.kernel.opened lfd)).modify listener
      (eventSet lfd .acceptconn listener io.time) keepsArg_eventSet).slot listener =
      eventSet lfd .acceptconn listener io.time MyEvent.zero := by
    rw [modify_slot_self, setKernel_slot]
    rfl
  by_cases hfd : fd = lfd
  · have hadd := eventAdd_interest_self io epollIn (p := listener)
      (w := (World.initial.setKernel (World.initial.kernel.opened lfd)).modify listener
        (eventSet lfd .acceptconn listener io.time) keepsArg_eventSet) (by
        rw [hslot]
        simp [eventSet])
    rw [hslot] at hadd
    change (World.started io lfd).1.kernel.interest lfd = _ at hadd
    rw [hfd, hadd, if_pos rfl, startReg]
    simp [eventSet, World.initial, Kernel.empty]
  · rw [World.started, initlistensocket, eventAdd_interest_of_ne (by rwa [hslot]), if_neg hfd]
    rfl

lemma listening_started (io : Io) (lfd : ℤ) :
    Listening (startReg io lfd) lfd io.time (World.started io lfd).1 := by
  refine ⟨started_listener io lfd, ?_, ?_, fun p hp => Or.inl (started_slot_of_ne hp)⟩
  · rw [started_isOpen]
    simp
  · rw [started_interest, if_pos rfl]

/-- Only a local of `acceptconn` that is no index of the table leaves the model, in which nothing
is printed. -/
lemma main_ne_none_iff {ls : List Pass}
    (hfresh : Allowed loopStep LoopFresh (loopSteps ls) (World.started io lfd)) :
    main io lfd ls ≠ none ↔
      Allowed loopStep LoopInTable (loopSteps ls) (World.started io lfd) := by
  rw [main, mainLoop_eq_exec]
  exact exec_ne_none_iff_allowed (fun s => Listening (startReg io lfd) lfd io.time s.1)
    (fun s l h hl => (h.loopStep hl).1) (fun s l r h hl hr => ((h.loopStep hl).2 r hr).1)
    (listening_started io lfd) hfresh

/-- **The server keeps listening.**  In every run of `main` in which `accept` returns descriptors
that are not open, whatever else the kernel answers and whatever slots are filled: the local of
`acceptconn` has been an index of the table, the listening socket stays open, in its slot and
registered as it was at first, and nothing but `acceptconn` is ever done with it. -/
theorem main_keeps_listening (io : Io) (lfd : ℤ) (ls : List Pass)
    (hfresh : Allowed loopStep LoopFresh (loopSteps ls) (World.started io lfd))
    (q : (World × Slot) × List Act) (hq : main io lfd ls = some q) :
    Allowed loopStep LoopInTable (loopSteps ls) (World.started io lfd) ∧
      Listening (startReg io lfd) lfd io.time q.1.1 ∧ ∀ a ∈ q.2, a.Spares lfd := by
  refine ⟨(main_ne_none_iff hfresh).1 (by rw [hq]; exact Option.some_ne_none _), ?_⟩
  rw [main, mainLoop_eq_exec] at hq
  exact exec_inv_outputs (fun s => Listening (startReg io lfd) lfd io.time s.1)
    (fun s l r h hl hr => (h.loopStep hl).2 r hr) (listening_started io lfd) hfresh hq

/-- A sweep that finds no idle slot changes nothing. -/
lemma sweep_quiet {now : ℤ} (h : ∀ p ≠ listener, ¬ Idle now (w.slot p)) (n : ℕ)
    (checkpos : Slot) :
    (sweep io now n checkpos w).1.1 = w ∧ (sweep io now n checkpos w).2 = [] := by
  induction n generalizing checkpos with
  | zero => exact ⟨rfl, rfl⟩
  | succ n ih =>
    rw [sweep, sweepSlot_not_idle (h _ (castSucc_ne_listener _))]
    exact ih _

lemma started_quiet {now : ℤ} (hp : p ≠ listener) :
    ¬ Idle now ((World.started io lfd).1.slot p) := by
  rw [started_slot_of_ne hp]
  rintro ⟨hs, -⟩
  cases hs

/-- A pass in which a connection is accepted into the first slot. -/
def Pass.first : Pass := ⟨0, Io.still true, some [(⟨epollIn, listener⟩, Io.accepting 5 0)]⟩

/-- The first connection is accepted into the first slot. -/
theorem main_keeps_listening_first :
    ∃ q, main (Io.still true) 4 [.first] = some q ∧
      Listening (some (epollIn, listener)) 4 0 q.1.1 ∧ ∀ a ∈ q.2, a.Spares 4 := by
  have hfresh : Allowed loopStep LoopFresh (loopSteps [.first])
      (World.started (Io.still true) 4) := by
    refine allowed_cons.2 ⟨trivial, fun r hr => allowed_cons.2 ⟨?_, fun _ _ => allowed_nil _ _⟩⟩
    obtain rfl := Option.some.inj hr
    refine allowed_cons.2 ⟨fun _ cfd hcfd => ?_, fun _ _ => allowed_nil _ _⟩
    obtain rfl : 5 = cfd := Option.some.inj hcfd
    rw [(sweep_quiet (fun p hp => started_quiet hp) 100 _).1, started_isOpen]
    rfl
  have hin : Allowed loopStep LoopInTable (loopSteps [.first])
      (World.started (Io.still true) 4) := by
    refine allowed_cons.2 ⟨trivial, fun r hr => allowed_cons.2 ⟨?_, fun _ _ => allowed_nil _ _⟩⟩
    exact allowed_cons.2 ⟨fun _ _ _ => ⟨le_rfl, by decide⟩, fun _ _ => allowed_nil _ _⟩
  obtain ⟨q, hq⟩ := Option.ne_none_iff_exists'.1 ((main_ne_none_iff hfresh).2 hin)
  exact ⟨q, hq, (main_keeps_listening (Io.still true) 4 [.first] hfresh q hq).2⟩

end LibeventLearn.Reactor
