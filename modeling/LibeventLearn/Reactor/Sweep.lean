import LibeventLearn.Reactor.Slots

/-!
# The idle sweep

Which slots the idle sweep of `main` looks at, which of them it closes, and how long a slot can
be idle before it is looked at.  The position `checkpos` runs round the client slots and is kept
from one sweep to the next, so that a sweep of 100 begins where the last one ended.

The last part is about the clock: `event_set` stores it in an `int`, and the sweep subtracts that
from a `long`.
-/

namespace LibeventLearn.Reactor

open Lib Epoll

variable {io : Io} {p q : Slot} {w : World} {now la : ℤ} {n : ℕ} {checkpos : Slot}
  {s : World × Slot} {ls : List LoopStep}

instance decidableIdle {ev : MyEvent} : Decidable (Idle now ev) :=
  inferInstanceAs (Decidable (_ ∧ _))

/-! ## The slots that a sweep looks at -/

/-- The slots that `n` rounds of the sweep look at, in order. -/
def inspected : ℕ → Slot → List Slot
  | 0, _ => []
  | n + 1, checkpos => (wrapPos checkpos).castSucc :: inspected n (wrapPos checkpos).succ

/-- How many rounds the sweep is away from `p`. -/
def away (p checkpos : Slot) : ℕ := (p.val + maxEvents - checkpos.val % maxEvents) % maxEvents

lemma wrapPos_val (checkpos : Slot) : (wrapPos checkpos).val = checkpos.val % maxEvents := by
  have hlt := checkpos.isLt
  unfold wrapPos
  split
  · rename_i h
    rw [h]
    rfl
  · exact (Nat.mod_eq_of_lt (by omega)).symm

lemma wrapPos_succ_val (checkpos : Slot) :
    (wrapPos checkpos).succ.val = checkpos.val % maxEvents + 1 := by
  rw [Fin.val_succ, wrapPos_val]

lemma ne_listener_of_mem_inspected (h : p ∈ inspected n checkpos) : p ≠ listener := by
  induction n generalizing checkpos with
  | zero => exact absurd h List.not_mem_nil
  | succ n ih =>
    rcases List.mem_cons.1 h with rfl | h
    · exact castSucc_ne_listener _
    · exact ih h

lemma lt_maxEvents (hp : p ≠ listener) : p.val < maxEvents := by
  have hlt := p.isLt
  have hne : p.val ≠ maxEvents := fun h => hp (Fin.ext h)
  omega

lemma mem_inspected_iff (hp : p ≠ listener) : p ∈ inspected n checkpos ↔ away p checkpos < n := by
  have hlt := lt_maxEvents hp
  induction n generalizing checkpos with
  | zero => exact iff_of_false List.not_mem_nil (Nat.not_lt_zero _)
  | succ n ih =>
    have hself : p = (wrapPos checkpos).castSucc ↔ p.val = checkpos.val % maxEvents := by
      rw [Fin.ext_iff, Fin.val_castSucc, wrapPos_val]
    have hrest : p ∈ inspected n (wrapPos checkpos).succ ↔ away p (wrapPos checkpos).succ < n :=
      ih
    rw [inspected, List.mem_cons, hrest, hself]
    unfold away
    rw [wrapPos_succ_val]
    unfold maxEvents at *
    omega

/-- A slot is looked at once in a sweep of at most 1024 rounds. -/
lemma nodup_inspected (hn : n ≤ maxEvents) : (inspected n checkpos).Nodup := by
  induction n generalizing checkpos with
  | zero => exact List.nodup_nil
  | succ n ih =>
    refine List.nodup_cons.2 ⟨fun hmem => ?_, ih (by omega)⟩
    have haway := (mem_inspected_iff (ne_listener_of_mem_inspected hmem)).1 hmem
    unfold away at haway
    rw [wrapPos_succ_val, Fin.val_castSucc, wrapPos_val] at haway
    unfold maxEvents at *
    omega

/-- After `n` rounds the sweep is `n` rounds nearer to the slots that it has not come to. -/
lemma away_sweep (h : n ≤ away p checkpos) :
    away p (sweep io now n checkpos w).1.2 + n = away p checkpos := by
  induction n generalizing checkpos w with
  | zero => rfl
  | succ n ih =>
    have hnext : away p (wrapPos checkpos).succ + 1 = away p checkpos := by
      unfold away at h ⊢
      rw [wrapPos_succ_val]
      unfold maxEvents at *
      omega
    rw [sweep]
    dsimp only
    rw [← hnext, ← ih (by omega : n ≤ away p (wrapPos checkpos).succ), Nat.add_assoc]

/-! ## What a sweep does -/

/-- The slot and the descriptor of a `close`. -/
def Act.closed : Act → Option (Slot × ℤ)
  | .close p fd _ => some (p, fd)
  | _ => none

/-- The sweep closes those of the slots `l` that are idle, in order, and leaves all others
alone. -/
structure SweepRight (now : ℤ) (l : List Slot) (w : World) (r : World × List Act) : Prop where
  closes : r.2.map Act.closed =
    (l.filter fun p => Idle now (w.slot p)).map fun p => some (p, (w.slot p).fd)
  idle : ∀ p ∈ l, Idle now (w.slot p) → r.1.slot p = (w.slot p).absent
  others : ∀ p, ¬ (p ∈ l ∧ Idle now (w.slot p)) → r.1.slot p = w.slot p

lemma Dropped.slot_absent {w' : World} (hd : Dropped p w w') (hs : (w.slot p).status = 1) :
    w'.slot p = (w.slot p).absent := by
  rw [hd.slot_self, hs]
  rfl

lemma sweepRight_of_nodup (hnodup : (inspected n checkpos).Nodup) :
    SweepRight now (inspected n checkpos) w
      ((sweep io now n checkpos w).1.1, (sweep io now n checkpos w).2) := by
  induction n generalizing checkpos w with
  | zero => exact ⟨rfl, fun p hp => absurd hp List.not_mem_nil, fun _ _ => rfl⟩
  | succ n ih =>
    obtain ⟨hnot, hnodup⟩ := List.nodup_cons.1 hnodup
    rw [inspected, sweep]
    dsimp only
    set p₀ : Slot := (wrapPos checkpos).castSucc
    set l := inspected n (wrapPos checkpos).succ
    have hrest := @ih (sweepSlot io now p₀ w).1 (wrapPos checkpos).succ hnodup
    have hne : ∀ p ∈ l, p ≠ p₀ := fun p hp heq => hnot (heq ▸ hp)
    by_cases hidle : Idle now (w.slot p₀)
    · obtain ⟨hd, hact⟩ := sweepSlot_idle io hidle
      have hslot : ∀ p ∈ l, (sweepSlot io now p₀ w).1.slot p = w.slot p := fun p hp =>
        hd.slot_of_ne p (hne p hp)
      refine ⟨?_, fun p hp hi => ?_, fun p hp => ?_⟩
      · have hfilter : l.filter (fun p => Idle now ((sweepSlot io now p₀ w).1.slot p)) =
            l.filter fun p => Idle now (w.slot p) :=
          List.filter_congr fun p hp => by rw [hslot p hp]
        have hfirst : (p₀ :: l).filter (fun p => Idle now (w.slot p)) =
            p₀ :: l.filter fun p => Idle now (w.slot p) :=
          List.filter_cons_of_pos (by simpa using hidle)
        rw [List.map_append, hrest.closes, hact, hfilter, hfirst, List.map_cons]
        refine congrArg (some (p₀, (w.slot p₀).fd) :: ·) (List.map_congr_left fun p hp => ?_)
        rw [hslot p (List.mem_filter.1 hp).1]
      · rcases List.mem_cons.1 hp with rfl | hp
        · rw [hrest.others p₀ fun h => hnot h.1]
          exact hd.slot_absent hidle.1
        · rw [hrest.idle p hp (by rwa [hslot p hp]), hslot p hp]
      · have hp₀ : p ≠ p₀ := by
          rintro rfl
          exact hp ⟨List.mem_cons_self .., hidle⟩
        rw [hrest.others p fun h => hp ⟨List.mem_cons_of_mem _ h.1, hslot p h.1 ▸ h.2⟩,
          hd.slot_of_ne p hp₀]
    · rw [sweepSlot_not_idle hidle] at hrest ⊢
      refine ⟨?_, fun p hp hi => ?_, fun p hp => ?_⟩
      · rw [List.nil_append, hrest.closes, List.filter_cons_of_neg (by simpa using hidle)]
      · rcases List.mem_cons.1 hp with rfl | hp
        · exact absurd hi hidle
        · exact hrest.idle p hp hi
      · exact hrest.others p fun h => hp ⟨List.mem_cons_of_mem _ h.1, h.2⟩

/-! ## How long a slot can be idle -/

/-- Some sweep of the run looks at `p`. -/
def Covered (p : Slot) : List LoopStep → World × Slot → Prop
  | [], _ => False
  | l :: ls, s =>
    (∃ now io, l = .sweep now io ∧ p ∈ inspected 100 s.2) ∨
      ∃ r, loopStep l s = some r ∧ Covered p ls r.1

/-- The step is a sweep. -/
def LoopStep.isSweep : LoopStep → Bool
  | .sweep _ _ => true
  | .batch _ => false

/-- The slot is monitored, and was active last at `la`. -/
def Kept (p : Slot) (la : ℤ) (w : World) : Prop :=
  (w.slot p).status = 1 ∧ (w.slot p).lastActive = la

/-- A run covers every slot from which it is no further away than its sweeps go. -/
lemma covered_of_away (hp : p ≠ listener) :
    ∀ {ls : List LoopStep} {s : World × Slot} {q : (World × Slot) × List Act},
      exec loopStep ls s = some q → away p s.2 < 100 * ls.countP LoopStep.isSweep →
        Covered p ls s := by
  intro ls
  induction ls with
  | nil =>
    intro s q _ haway
    exact absurd haway (Nat.not_lt_zero _)
  | cons l ls ih =>
    intro s q hexec haway
    obtain ⟨r, r', hr, hr', -⟩ := exec_cons_eq_some.1 hexec
    cases l with
    | sweep now io =>
      rcases Nat.lt_or_ge (away p s.2) 100 with hlt | hge
      · exact Or.inl ⟨now, io, rfl, (mem_inspected_iff hp).2 hlt⟩
      · refine Or.inr ⟨r, hr, ih hr' ?_⟩
        have hnear : away p (sweep io now 100 s.2 s.1).1.2 + 100 = away p s.2 := away_sweep hge
        obtain rfl : sweep io now 100 s.2 s.1 = r := Option.some.inj hr
        rw [List.countP_cons_of_pos rfl] at haway
        omega
    | batch es =>
      refine Or.inr ⟨r, hr, ih hr' ?_⟩
      obtain ⟨r₁, -, rfl⟩ := Option.map_eq_some_iff.1 hr
      rwa [List.countP_cons_of_neg (by simp [LoopStep.isSweep])] at haway

/-- What holds before every step of a run and at its end holds where it starts. -/
lemma kept_of_allowed {q : (World × Slot) × List Act}
    (hexec : exec loopStep ls s = some q)
    (hkept : Allowed loopStep (fun s _ => Kept p la s.1) ls s) (hend : Kept p la q.1.1) :
    Kept p la s.1 := by
  cases ls with
  | nil =>
    obtain rfl : (s, []) = q := Option.some.inj hexec
    exact hend
  | cons l ls => exact hkept.1

/-- A slot that the sweep finds idle is not kept. -/
lemma not_kept_of_covered :
    ∀ {ls : List LoopStep} {s : World × Slot} {q : (World × Slot) × List Act},
      Covered p ls s → exec loopStep ls s = some q →
        (∀ now io, .sweep now io ∈ ls → la + 60 ≤ now) →
          Allowed loopStep (fun s _ => Kept p la s.1) ls s → ¬ Kept p la q.1.1 := by
  intro ls
  induction ls with
  | nil => intro s q hc; exact absurd hc id
  | cons l ls ih =>
    intro s q hc hexec hnow hkept hend
    obtain ⟨r, r', hr, hr', rfl⟩ := exec_cons_eq_some.1 hexec
    have hrest := hkept.2 r hr
    rcases hc with ⟨now, io, rfl, hp⟩ | ⟨r₁, hr₁, hc⟩
    · have hright : SweepRight now (inspected 100 s.2) s.1 (r.1.1, r.2) := by
        obtain rfl : sweep io now 100 s.2 s.1 = r := Option.some.inj hr
        exact sweepRight_of_nodup (nodup_inspected (by decide))
      have hlate := hnow now io (List.mem_cons_self ..)
      have hidle : Idle now (s.1.slot p) := ⟨hkept.1.1, by rw [hkept.1.2]; omega⟩
      have hstatus := (kept_of_allowed hr' hrest hend).1
      rw [hright.idle p hp hidle] at hstatus
      exact absurd hstatus (by show (0 : ℤ) ≠ 1; omega)
    · obtain rfl : r = r₁ := Option.some.inj (hr.symm.trans hr₁)
      exact ih hc hr' (fun now io hmem => hnow now io (List.mem_cons_of_mem _ hmem)) hrest hend

/-- **A sweep looks at client slots only, closes the idle ones among those that it looks at, and
comes to every client slot in 11 times.**  So in no run does a slot stay monitored through 11
sweeps that find it idle. -/
theorem idle_sweep (s : World × Slot) :
    (∀ p ∈ inspected 100 s.2, p ≠ listener) ∧
      (∀ now io, ∃ r, loopStep (.sweep now io) s = some r ∧
        SweepRight now (inspected 100 s.2) s.1 (r.1.1, r.2)) ∧
      ∀ ls q, exec loopStep ls s = some q → 11 ≤ ls.countP LoopStep.isSweep →
        (∀ p ≠ listener, Covered p ls s) ∧
          ∀ p ≠ listener, ∀ la, (∀ now io, .sweep now io ∈ ls → la + 60 ≤ now) →
            Allowed loopStep (fun s _ => Kept p la s.1) ls s → ¬ Kept p la q.1.1 := by
  refine ⟨fun p hp => ne_listener_of_mem_inspected hp, fun now io => ?_,
    fun ls q hexec hcount => ?_⟩
  · exact ⟨_, rfl, sweepRight_of_nodup (nodup_inspected (by decide))⟩
  · have hcovered : ∀ p ≠ listener, Covered p ls s := by
      intro p hp
      refine covered_of_away hp hexec ?_
      have haway : away p s.2 < maxEvents := Nat.mod_lt _ (by decide)
      unfold maxEvents at haway
      omega
    exact ⟨hcovered, fun p hp la hnow hkept => not_kept_of_covered (hcovered p hp) hexec hnow hkept⟩

/-- Eleven sweeps of the server with one connection look at every client slot. -/
theorem idle_sweep_connected :
    ∃ q, exec loopStep (List.replicate 11 (.sweep 60 (Io.still true))) (World.connected, 0) =
        some q ∧
      ∀ p ≠ listener,
        Covered p (List.replicate 11 (.sweep 60 (Io.still true))) (World.connected, 0) := by
  obtain ⟨-, -, hrun⟩ := idle_sweep (World.connected, 0)
  exact ⟨_, rfl, (hrun _ _ rfl (by decide)).1⟩

/-! ## The clock -/

/-- The body of the idle sweep for one slot, where the difference is a `long`: it is not defined if
that overflows. -/
def sweepSlotLong (io : Io) (now : ℤ) (p : Slot) (w : World) : Option (World × List Act) :=
  if (w.slot p).status = 1 ∧ subInt64 now (w.slot p).lastActive = none then none
  else some (sweepSlot io now p w)

/-- As long as the difference is a `long`, this is what the sweep does. -/
lemma sweepSlotLong_eq (hle : -2 ^ 63 ≤ now - (w.slot p).lastActive)
    (hlt : now - (w.slot p).lastActive < 2 ^ 63) :
    sweepSlotLong io now p w = some (sweepSlot io now p w) := by
  have hsub : subInt64 now (w.slot p).lastActive = some (now - (w.slot p).lastActive) :=
    if_pos ⟨hle, hlt⟩
  refine if_neg fun hover => ?_
  rw [hsub] at hover
  cases hover.2

/-- In particular until 2038. -/
lemma sweepSlotLong_of_int (hnow : 0 ≤ now ∧ now < 2 ^ 31) (hla : IsInt32 (w.slot p).lastActive) :
    sweepSlotLong io now p w = some (sweepSlot io now p w) := by
  obtain ⟨hle, hlt⟩ := hla
  exact sweepSlotLong_eq (by omega) (by omega)

/-- The slot was stamped by `event_set` at the time `t`. -/
def Stamped (t : ℤ) (ev : MyEvent) : Prop :=
  ∃ fd cb p ev₀, ev.lastActive = (eventSet fd cb p t ev₀).lastActive

/-- What the sweep at the time `t₁` should do to a slot that was stamped at `t₀`. -/
def AgedRight (io : Io) (t₀ t₁ : ℤ) (p : Slot) (w : World) : Prop :=
  ∃ r, sweepSlotLong io t₁ p w = some r ∧
    (60 ≤ t₁ - t₀ →
      r.1.slot p = (w.slot p).absent ∧ r.2.map Act.closed = [some (p, (w.slot p).fd)]) ∧
    (t₁ - t₀ < 60 → r = (w, []))

/-- **A connection is closed for its age only if it was stamped before 2038, or is old enough in
any case.** -/
theorem agedRight_iff {t₀ t₁ : ℤ} (h₀ : 0 ≤ t₀) (h₁ : t₀ ≤ t₁) (hlt : t₁ < 2 ^ 63)
    (hs : (w.slot p).status = 1) (hstamp : Stamped t₀ (w.slot p)) :
    AgedRight io t₀ t₁ p w ↔ t₀ < 2 ^ 31 ∨ (60 ≤ t₁ - t₀ ∧ t₁ - toInt32 t₀ < 2 ^ 63) := by
  have hla : (w.slot p).lastActive = toInt32 t₀ := by
    obtain ⟨fd, cb, q, ev₀, h⟩ := hstamp
    exact h
  have hint := isInt32_toInt32 t₀
  obtain ⟨hge, hle⟩ := hint
  -- the stamp is right, or older by 4294967296 s at least
  have hstamp : t₀ < 2 ^ 31 ∧ toInt32 t₀ = t₀ ∨ 2 ^ 31 ≤ t₀ ∧ toInt32 t₀ + 2 ^ 32 ≤ t₀ := by
    rcases lt_or_ge t₀ (2 ^ 31) with hsmall | hlarge
    · refine Or.inl ⟨hsmall, ?_⟩
      have hcast := toInt32_natCast (x := t₀.toNat) (by omega)
      rwa [Int.toNat_of_nonneg h₀] at hcast
    · exact Or.inr ⟨hlarge, toInt32_add_le hlarge⟩
  rcases lt_or_ge (t₁ - toInt32 t₀) (2 ^ 63) with hfit | hover
  · have heq : sweepSlotLong io t₁ p w = some (sweepSlot io t₁ p w) :=
      sweepSlotLong_eq (by rw [hla]; omega) (by rw [hla]; omega)
    by_cases hold : 60 ≤ t₁ - toInt32 t₀
    · have hidle : Idle t₁ (w.slot p) := ⟨hs, by rw [hla]; exact hold⟩
      obtain ⟨hd, hact⟩ := sweepSlot_idle io hidle
      constructor
      · rintro ⟨r, hr, -, hyoung⟩
        rw [heq] at hr
        obtain rfl := Option.some.inj hr
        by_contra hno
        have hsame := hyoung (by omega)
        rw [hsame] at hact
        cases hact
      · intro hright
        refine ⟨_, heq, fun _ => ⟨hd.slot_absent hs, by rw [hact]; rfl⟩, fun hyoung => ?_⟩
        omega
    · have hidle : ¬ Idle t₁ (w.slot p) := fun h => hold (by rw [← hla]; exact h.2)
      refine iff_of_true ⟨_, heq, fun hage => ?_, fun _ => sweepSlot_not_idle hidle⟩ ?_
      · omega
      · omega
  · have hnone : sweepSlotLong io t₁ p w = none := by
      refine if_pos ⟨hs, ?_⟩
      rw [hla]
      exact if_neg (by omega)
    refine iff_of_false ?_ (by omega)
    rintro ⟨r, hr, -⟩
    rw [hnone] at hr
    cases hr

/-- A server that has put one connection into slot 0 at the time `t`. -/
def World.connectedAt (t : ℤ) : World :=
  eventAdd (Io.still true) epollIn 0
    ((World.initial.setKernel (Kernel.empty.opened 5)).modify 0 (eventSet 5 .recvdata 0 t)
      keepsArg_eventSet)

lemma connectedAt_slot {t : ℤ} :
    (World.connectedAt t).slot 0 = (eventSet 5 .recvdata 0 t MyEvent.zero).monitor epollIn := by
  rw [World.connectedAt, eventAdd_slot_self, modify_slot_self]
  rfl

lemma stamped_connectedAt (t : ℤ) : Stamped t ((World.connectedAt t).slot 0) := by
  rw [connectedAt_slot]
  exact ⟨5, .recvdata, 0, MyEvent.zero, rfl⟩

/-- A connection of 2038 is closed by the first sweep. -/
theorem fresh_closed :
    ((World.connectedAt (2 ^ 31)).slot 0).status = 1 ∧
      Stamped (2 ^ 31) ((World.connectedAt (2 ^ 31)).slot 0) ∧
      ¬ AgedRight (Io.still true) (2 ^ 31) (2 ^ 31) 0 (World.connectedAt (2 ^ 31)) := by
  have hs : ((World.connectedAt (2 ^ 31)).slot 0).status = 1 := by
    rw [connectedAt_slot]
    rfl
  have hla : ((World.connectedAt (2 ^ 31)).slot 0).lastActive = -2 ^ 31 := by
    rw [connectedAt_slot]
    decide
  refine ⟨hs, stamped_connectedAt _, ?_⟩
  rintro ⟨r, hr, -, hyoung⟩
  rw [sweepSlotLong_eq (by rw [hla]; omega) (by rw [hla]; omega), hyoung (by omega)] at hr
  have hidle : Idle (2 ^ 31) ((World.connectedAt (2 ^ 31)).slot 0) := ⟨hs, by rw [hla]; omega⟩
  obtain ⟨-, hact⟩ := sweepSlot_idle (Io.still true) hidle
  rw [Option.some.inj hr] at hact
  cases hact

/-- One of 2021 is closed after a minute, and not before. -/
theorem agedRight_iff_connectedAt :
    AgedRight (Io.still true) 1623624000 1623624060 0 (World.connectedAt 1623624000) ∧
      AgedRight (Io.still true) 1623624000 1623624059 0 (World.connectedAt 1623624000) := by
  have hs : ((World.connectedAt 1623624000).slot 0).status = 1 := by
    rw [connectedAt_slot]
    rfl
  exact ⟨(agedRight_iff (by omega) (by omega) (by omega) hs (stamped_connectedAt _)).2
      (Or.inl (by omega)),
    (agedRight_iff (by omega) (by omega) (by omega) hs (stamped_connectedAt _)).2
      (Or.inl (by omega))⟩

end LibeventLearn.Reactor
