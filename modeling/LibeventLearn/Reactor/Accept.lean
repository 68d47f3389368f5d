import LibeventLearn.Reactor.Slots

/-!
# Accepting a connection

`acceptconn` looks for a free slot with a loop variable of its own, and then uses the local `i`
of the function, which nothing has assigned.  So it fills whatever slot that local happens to
name, free or not, and when it gives up it keeps the accepted descriptor open.  This file says
what it does for each value of the local, finds the exact condition under which a connection is
accepted properly, and lifts it to runs of accepts.
-/

namespace LibeventLearn.Reactor

open Lib Epoll

variable {io : Io} {p q : Slot} {cfd : ℤ} {w w' : World}

/-! ## What `acceptconn` does -/

/-- The effect of filling the slot `p` with an accepted descriptor. -/
structure Filled (io : Io) (cfd : ℤ) (p : Slot) (w w' : World) : Prop where
  slot_self : w'.slot p = (eventSet cfd .recvdata p io.time (w.slot p)).monitor epollIn
  slot_of_ne : ∀ q ≠ p, w'.slot q = w.slot q
  isOpen : w'.kernel.isOpen = Function.update w.kernel.isOpen cfd true

/-- The call of `acceptconn` by the dispatch loop. -/
def acceptStep (io : Io) (w : World) : Option (World × List Act) :=
  acceptconn io (w.slot listener).fd epollIn listener w

lemma slotAt_val (p : Slot) : slotAt (p.val : ℤ) = some p := by
  have := p.isLt
  rw [slotAt, dif_pos ⟨by omega, by omega⟩]
  exact congrArg some (Fin.ext rfl)

lemma slotAt_outside {i : ℤ} (h : i < 0 ∨ maxEvents < i) : slotAt i = none :=
  dif_neg (by omega)

/-- The values of the local `i`: a client slot, the listener slot, or outside of the table. -/
lemma index_cases (i : ℤ) :
    (∃ p : Slot, p ≠ listener ∧ i = p.val) ∨ i = (listener : Slot).val ∨
      (i < 0 ∨ maxEvents < i) := by
  by_cases h : 0 ≤ i ∧ i < maxEvents
  · refine Or.inl ⟨⟨i.toNat, by omega⟩, ?_, by simp [h.1]⟩
    intro heq
    have := congrArg Fin.val heq
    simp only [Fin.val_last] at this
    omega
  · rw [Fin.val_last]
    omega

lemma index_ne_maxEvents (hp : p ≠ listener) : (p.val : ℤ) ≠ maxEvents := by
  intro h
  exact hp (Fin.ext (by rw [Fin.val_last]; omega))

lemma acceptStep_none (h : io.accept = none) : acceptStep io w = some (w, []) := by
  simp [acceptStep, acceptconn, h]

/-- The local names a client slot and `fcntl` succeeds: that slot is filled. -/
lemma acceptStep_fill (w : World) (h : io.accept = some cfd) (hi : io.uninit = p.val)
    (hp : p ≠ listener) (hf : 0 ≤ io.fcntl) :
    ∃ w', acceptStep io w = some (w', [.accept cfd]) ∧ Filled io cfd p w w' := by
  simp only [acceptStep, acceptconn, h, hi, if_neg (index_ne_maxEvents hp),
    if_neg (not_lt.2 hf), slotAt_val, Option.map_some]
  refine ⟨_, rfl, ?_, fun q hq => ?_, ?_⟩
  · rw [eventAdd_slot_self, modify_slot_self, setKernel_slot]
  · rw [eventAdd_slot_of_ne hq, modify_slot_of_ne hq, setKernel_slot]
  · rw [eventAdd_isOpen, modify_kernel, setKernel_kernel, Kernel.opened_isOpen]

/-- The local is `MAX_EVENTS`, or names a client slot and `fcntl` fails: nothing happens to the
table, nor to the accepted descriptor. -/
lemma acceptStep_keep (h : io.accept = some cfd) (hi : io.uninit = p.val)
    (hk : p = listener ∨ io.fcntl < 0) :
    acceptStep io w = some (w.setKernel (w.kernel.opened cfd), [.accept cfd]) := by
  simp only [acceptStep, acceptconn, h]
  split
  · rw [hi, slotAt_val, Option.map_some]
  · rename_i hne
    have hp : p ≠ listener := fun hp => hne (by rw [hi, hp, Fin.val_last])
    rw [if_pos (hk.resolve_left hp), hi, slotAt_val, Option.map_some]

/-- The local is not the index of a slot: the function reads outside of the table. -/
lemma acceptStep_outside (h : io.accept = some cfd)
    (hi : io.uninit < 0 ∨ maxEvents < io.uninit) : acceptStep io w = none := by
  simp only [acceptStep, acceptconn, h, slotAt_outside hi, Option.map_none, ite_self]

/-! ## A connection accepted properly -/

/-- Some client slot has status 0. -/
def HasFree (w : World) : Prop := ∃ p ≠ listener, (w.slot p).status = 0

/-- The descriptor is in one slot that was free, under `recvdata` and `EPOLLIN`, and every
other slot is as it was. -/
def Installed (cfd : ℤ) (w w' : World) : Prop :=
  ∃ p ≠ listener, (w.slot p).status = 0 ∧
    ((w'.slot p).fd = cfd ∧ (w'.slot p).callBack = .recvdata ∧ (w'.slot p).events = epollIn ∧
      (w'.slot p).status = 1) ∧
    ∀ q ≠ p, w'.slot q = w.slot q

/-- What is expected of a successful `accept`. -/
def AcceptedProperly (io : Io) (cfd : ℤ) (w w' : World) : Prop :=
  (HasFree w ∧ 0 ≤ io.fcntl → Installed cfd w w') ∧
    (¬ HasFree w ∨ io.fcntl < 0 → w'.gEvents = w.gEvents ∧ w'.kernel.isOpen cfd = false)

/-- The local `i` happens to be the index of a free client slot, and `fcntl` succeeds. -/
def FreeIndex (io : Io) (w : World) : Prop :=
  0 ≤ io.fcntl ∧ ∃ p ≠ listener, io.uninit = p.val ∧ (w.slot p).status = 0

lemma Filled.installed (h : Filled io cfd p w w') (hp : p ≠ listener)
    (hs : (w.slot p).status = 0) : Installed cfd w w' := by
  refine ⟨p, hp, hs, ?_, h.slot_of_ne⟩
  rw [h.slot_self]
  exact ⟨rfl, rfl, rfl, rfl⟩

/-- A descriptor that stays open has to be installed. -/
lemma AcceptedProperly.installed (h : AcceptedProperly io cfd w w')
    (hopen : w'.kernel.isOpen cfd = true) : HasFree w ∧ 0 ≤ io.fcntl ∧ Installed cfd w w' := by
  by_cases hgood : HasFree w ∧ 0 ≤ io.fcntl
  · exact ⟨hgood.1, hgood.2, h.1 hgood⟩
  · have hclosed := h.2 (by
      rw [not_and_or, not_le] at hgood
      exact hgood)
    exact absurd (hopen.symm.trans hclosed.2) (by simp)

/-- **One accept.**  The connection is accepted properly exactly when the uninitialised local
happens to name a free client slot, and `fcntl` succeeds. -/
lemma acceptStep_properly_iff (h : io.accept = some cfd) :
    (∃ r, acceptStep io w = some r ∧ AcceptedProperly io cfd w r.1) ↔ FreeIndex io w := by
  constructor
  · rintro ⟨r, hr, hproper⟩
    rcases index_cases io.uninit with ⟨p, hp, hi⟩ | hi | hi
    · by_cases hf : 0 ≤ io.fcntl
      · -- the slot the local names is filled, so it must be the free one
        obtain ⟨w', hw', hfilled⟩ := acceptStep_fill w h hi hp hf
        obtain rfl : (w', [.accept cfd]) = r := Option.some.inj (hw'.symm.trans hr)
        obtain ⟨-, -, q, hq, hqs, ⟨-, -, -, hone⟩, -⟩ := hproper.installed (by
          simp [hfilled.isOpen])
        obtain rfl : q = p := by
          by_contra hqp
          rw [hfilled.slot_of_ne q hqp, hqs] at hone
          omega
        exact ⟨hf, q, hq, hi, hqs⟩
      · rw [acceptStep_keep h hi (Or.inr (not_le.1 hf))] at hr
        obtain rfl := Option.some.inj hr
        exact absurd (hproper.installed (by simp)).2.1 hf
    · -- the table is as it was, with the descriptor open
      rw [acceptStep_keep h hi (Or.inl rfl)] at hr
      obtain rfl := Option.some.inj hr
      obtain ⟨-, -, q, hq, hqs, ⟨-, -, -, hone⟩, -⟩ := hproper.installed (by simp)
      rw [setKernel_slot, hqs] at hone
      omega
    · rw [acceptStep_outside h hi] at hr
      exact absurd hr (by simp)
  · rintro ⟨hf, p, hp, hi, hs⟩
    obtain ⟨w', hw', hfilled⟩ := acceptStep_fill w h hi hp hf
    refine ⟨_, hw', fun _ => hfilled.installed hp hs, ?_⟩
    rintro (hnone | hneg)
    · exact absurd ⟨p, hp, hs⟩ hnone
    · exact absurd hf (not_le.2 hneg)

/-! ## Runs of accepts -/

/-- What is expected of one step of a run of accepts. -/
def ProperStep (w : World) (io : Io) (r : World × List Act) : Prop :=
  match io.accept with
  | none => r.1 = w
  | some cfd => AcceptedProperly io cfd w r.1

/-- What the step needs for that. -/
def LuckyStep (w : World) (io : Io) : Prop := io.accept ≠ none → FreeIndex io w

lemma properStep_iff : (∃ r, acceptStep io w = some r ∧ ProperStep w io r) ↔ LuckyStep w io := by
  unfold ProperStep LuckyStep
  cases h : io.accept with
  | none => simp [acceptStep_none h]
  | some cfd =>
    simp only [ne_eq, reduceCtorEq, not_false_eq_true, true_implies]
    exact acceptStep_properly_iff h

/-- The descriptor is in a monitored client slot. -/
def Held (cfd : ℤ) (w : World) : Prop :=
  ∃ p ≠ listener, (w.slot p).status = 1 ∧ (w.slot p).fd = cfd

/-- The monitored slots are kept. -/
def KeepsLive (w w' : World) : Prop := ∀ p, (w.slot p).status = 1 → w'.slot p = w.slot p

lemma Held.of_keepsLive (h : Held cfd w) (hk : KeepsLive w w') : Held cfd w' := by
  obtain ⟨p, hp, hs, hfd⟩ := h
  refine ⟨p, hp, ?_, ?_⟩ <;> rw [hk p hs] <;> assumption

/-- A proper step overwrites no live connection, and does not lose the descriptor. -/
lemma properStep_keeps {r : World × List Act} (h : LuckyStep w io)
    (hr : acceptStep io w = some r) :
    KeepsLive w r.1 ∧ ∀ cfd, io.accept = some cfd → Held cfd r.1 := by
  cases ha : io.accept with
  | none =>
    obtain rfl : (w, []) = r := Option.some.inj ((acceptStep_none ha).symm.trans hr)
    exact ⟨fun _ _ => rfl, by simp⟩
  | some cfd =>
    obtain ⟨hf, p, hp, hi, hs⟩ := h (by simp [ha])
    obtain ⟨w', hw', hfilled⟩ := acceptStep_fill w ha hi hp hf
    obtain rfl : (w', [.accept cfd]) = r := Option.some.inj (hw'.symm.trans hr)
    refine ⟨fun q hq => hfilled.slot_of_ne q ?_, ?_⟩
    · rintro rfl
      rw [hs] at hq
      omega
    · rintro cfd' hcfd
      obtain rfl := Option.some.inj hcfd
      refine ⟨p, hp, ?_, ?_⟩ <;> rw [hfilled.slot_self] <;> rfl

/-- A run of proper steps overwrites no connection that is live at its start, and holds every
accepted descriptor at its end. -/
lemma lucky_run_keeps {ios : List Io} (h : Allowed acceptStep LuckyStep ios w) :
    ∃ q, exec acceptStep ios w = some q ∧ KeepsLive w q.1 ∧
      ∀ io ∈ ios, ∀ cfd, io.accept = some cfd → Held cfd q.1 := by
  induction ios generalizing w with
  | nil => exact ⟨(w, []), rfl, fun _ _ => rfl, by simp⟩
  | cons io ios ih =>
    obtain ⟨r, hr, -⟩ := properStep_iff.2 h.1
    obtain ⟨hkeep, hheld⟩ := properStep_keeps h.1 hr
    obtain ⟨q, hq, hkeep', hheld'⟩ := ih (h.2 r hr)
    refine ⟨_, exec_cons_eq_some.2 ⟨r, q, hr, hq, rfl⟩, fun p hp => ?_, fun io' hio' cfd hcfd => ?_⟩
    · have hp' : (r.1.slot p).status = 1 := by rwa [hkeep p hp]
      exact (hkeep' p hp').trans (hkeep p hp)
    · rcases List.mem_cons.1 hio' with rfl | hio'
      · exact (hheld cfd hcfd).of_keepsLive hkeep'
      · exact hheld' io' hio' cfd hcfd

lemma throughout_proper_iff (ios : List Io) (w : World) :
    Throughout acceptStep ProperStep ios w ↔ Allowed acceptStep LuckyStep ios w := by
  have hall : Allowed acceptStep (fun _ _ => True) ios w :=
    allowed_of_forall (fun _ _ => trivial) _ _
  exact throughout_iff_allowed (fun _ => True) (fun _ _ _ _ => properStep_iff)
    (fun _ _ _ _ _ _ _ => trivial) trivial hall

/-- **Accepting is a matter of luck.**  A successful `accept` is handled properly if and only
if the uninitialised local names a free client slot and `fcntl` succeeds; a run of accepts is
handled properly if and only if that is so at every step, and then it overwrites no live
connection and loses no descriptor. -/
theorem acceptconn_properly_iff (w : World) :
    (∀ (io : Io) (cfd : ℤ), io.accept = some cfd →
      ((∃ r, acceptStep io w = some r ∧ AcceptedProperly io cfd w r.1) ↔ FreeIndex io w)) ∧
    ∀ ios : List Io,
      (Throughout acceptStep ProperStep ios w ↔ Allowed acceptStep LuckyStep ios w) ∧
      (Allowed acceptStep LuckyStep ios w →
        ∃ q, exec acceptStep ios w = some q ∧ KeepsLive w q.1 ∧
          ∀ io ∈ ios, ∀ cfd, io.accept = some cfd → Held cfd q.1) :=
  ⟨fun _ _ h => acceptStep_properly_iff h,
    fun ios => ⟨throughout_proper_iff ios w, lucky_run_keeps⟩⟩

/-- The world after `initlistensocket` with the descriptor 4. -/
def World.listening : World := initlistensocket (Io.still true) 4 World.initial

/-- `accept` returns `cfd` while the local of `acceptconn` holds `i`. -/
def Io.accepting (cfd i : ℤ) : Io := { Io.still true with accept := some cfd, uninit := i }

lemma listening_slot_of_ne (h : p ≠ listener) : World.listening.slot p = MyEvent.zero := by
  rw [World.listening, initlistensocket, eventAdd_slot_of_ne h, modify_slot_of_ne h,
    setKernel_slot]
  rfl

lemma freeIndex_listening : FreeIndex (Io.accepting 5 0) World.listening :=
  ⟨le_refl 0, 0, by decide, rfl, by rw [listening_slot_of_ne (by decide)]; rfl⟩

theorem acceptconn_properly_iff_listening :
    ∃ r, acceptStep (Io.accepting 5 0) World.listening = some r ∧
      AcceptedProperly (Io.accepting 5 0) 5 World.listening r.1 :=
  ((acceptconn_properly_iff World.listening).1 (Io.accepting 5 0) 5 rfl).2 freeIndex_listening

/-- Two connections are accepted by a server that has just started, with the local holding 0
both times: the second one overwrites the first. -/
theorem acceptconn_overwrites :
    ¬ ∀ ios : List Io, Throughout acceptStep ProperStep ios World.listening := by
  intro h
  have hlucky := (throughout_proper_iff _ _).1 (h [Io.accepting 5 0, Io.accepting 6 0])
  obtain ⟨r, hr, -⟩ := properStep_iff.2 hlucky.1
  obtain ⟨-, p, -, hi, hfree⟩ := (hlucky.2 r hr).1 (by simp [Io.accepting])
  obtain rfl : p = 0 := Fin.ext (by simpa [Io.accepting] using hi.symm)
  obtain ⟨w', hw', hfilled⟩ : ∃ w',
      acceptStep (Io.accepting 5 0) World.listening = some (w', [.accept 5]) ∧
        Filled (Io.accepting 5 0) 5 0 World.listening w' :=
    acceptStep_fill World.listening rfl rfl (by decide) (le_refl 0)
  obtain rfl : (w', [.accept 5]) = r := Option.some.inj (hw'.symm.trans hr)
  rw [hfilled.slot_self] at hfree
  cases hfree

end LibeventLearn.Reactor
