import Mathlib.Data.List.Basic

/-!
# Runs of a program that answers labels

A program is given by a step function: in a state `s` it answers a label `l` (a call made to
it, an event delivered to it, with everything the environment decides about it) by a new state
and a list of outputs, or by `none` when what it does there is undefined.  This file supplies
the runs of such a program over lists of labels, the two ways of saying that something holds
at every step of a run, and the rules that derive them from what one step does.
-/

namespace LibeventLearn.Lib

variable {S L O : Type*} (step : L → S → Option (S × List O))

/-- The run over a list of labels: the final state and all outputs, `none` as soon as one step
is undefined. -/
def exec : List L → S → Option (S × List O)
  | [], s => some (s, [])
  | l :: ls, s => (step l s).bind fun r => (exec ls r.1).map fun q => (q.1, r.2 ++ q.2)

/-- `A` holds of the state and the label at every step, as far as the run is defined.  This is
how the discipline of the callers and the conditions on single steps are stated. -/
def Allowed (A : S → L → Prop) : List L → S → Prop
  | [], _ => True
  | l :: ls, s => A s l ∧ ∀ r, step l s = some r → Allowed A ls r.1

/-- Every step of the run is defined, and `P` holds of it. -/
def Throughout (P : S → L → S × List O → Prop) : List L → S → Prop
  | [], _ => True
  | l :: ls, s => ∃ r, step l s = some r ∧ P s l r ∧ Throughout P ls r.1

variable {step}

@[simp] lemma exec_nil (s : S) : exec step [] s = some (s, []) := rfl

lemma exec_cons (l : L) (ls : List L) (s : S) :
    exec step (l :: ls) s =
      (step l s).bind fun r => (exec step ls r.1).map fun q => (q.1, r.2 ++ q.2) := rfl

/-- Inversion of a run over a nonempty list of labels. -/
lemma exec_cons_eq_some {l : L} {ls : List L} {s : S} {q : S × List O} :
    exec step (l :: ls) s = some q ↔
      ∃ r r', step l s = some r ∧ exec step ls r.1 = some r' ∧ q = (r'.1, r.2 ++ r'.2) := by
  simp only [exec_cons, Option.bind_eq_some_iff, Option.map_eq_some_iff]
  constructor
  · rintro ⟨r, hr, r', hr', rfl⟩
    exact ⟨r, r', hr, hr', rfl⟩
  · rintro ⟨r, r', hr, hr', rfl⟩
    exact ⟨r, hr, r', hr', rfl⟩

lemma exec_append (ls ls' : List L) (s : S) :
    exec step (ls ++ ls') s =
      (exec step ls s).bind fun r => (exec step ls' r.1).map fun q => (q.1, r.2 ++ q.2) := by
  induction ls generalizing s with
  | nil => simp
  | cons l ls ih =>
    rw [List.cons_append, exec_cons, exec_cons, Option.bind_assoc]
    refine Option.bind_congr fun r _ => ?_
    rw [ih, Option.map_bind, Option.bind_map]
    refine Option.bind_congr fun r' _ => ?_
    simp only [Function.comp_apply, Option.map_map, List.append_assoc]
    rfl

@[simp] lemma allowed_nil (A : S → L → Prop) (s : S) : Allowed step A [] s := trivial

@[simp] lemma throughout_nil (P : S → L → S × List O → Prop) (s : S) :
    Throughout step P [] s := trivial

lemma allowed_cons {A : S → L → Prop} {l : L} {ls : List L} {s : S} :
    Allowed step A (l :: ls) s ↔ A s l ∧ ∀ r, step l s = some r → Allowed step A ls r.1 :=
  Iff.rfl

lemma throughout_cons {P : S → L → S × List O → Prop} {l : L} {ls : List L} {s : S} :
    Throughout step P (l :: ls) s ↔
      ∃ r, step l s = some r ∧ P s l r ∧ Throughout step P ls r.1 :=
  Iff.rfl

/-- The program with a record of everything it has output. -/
def recorded (step : L → S → Option (S × List O)) (l : L) (s : S × List O) :
    Option ((S × List O) × List O) :=
  (step l s.1).map fun r => ((r.1, s.2 ++ r.2), r.2)

lemma recorded_of_eq {l : L} {s : S × List O} {r : S × List O} (h : step l s.1 = some r) :
    recorded step l s = some ((r.1, s.2 ++ r.2), r.2) := by
  rw [recorded, h]
  rfl

/-- Whether a run is allowed can be found out by running it. -/
instance decidableAllowed {A : S → L → Prop} [∀ s l, Decidable (A s l)] :
    ∀ (ls : List L) (s : S), Decidable (Allowed step A ls s)
  | [], _ => isTrue trivial
  | l :: ls, s =>
    have : ∀ r : S × List O, Decidable (Allowed step A ls r.1) := fun r => decidableAllowed ls r.1
    inferInstanceAs (Decidable (A s l ∧ ∀ r ∈ step l s, Allowed step A ls r.1))

lemma allowed_of_forall {A : S → L → Prop} (h : ∀ s l, A s l) :
    ∀ (ls : List L) (s : S), Allowed step A ls s
  | [], _ => trivial
  | l :: ls, s => ⟨h s l, fun r _ => allowed_of_forall h ls r.1⟩

lemma Allowed.imp {A C : S → L → Prop} (h : ∀ s l, A s l → C s l) :
    ∀ {ls : List L} {s : S}, Allowed step A ls s → Allowed step C ls s := by
  intro ls
  induction ls with
  | nil => intro s _; trivial
  | cons l ls ih =>
    rintro s ⟨hA, hrest⟩
    exact ⟨h s l hA, fun r hr => ih (hrest r hr)⟩

lemma Allowed.and {A C : S → L → Prop} :
    ∀ {ls : List L} {s : S}, Allowed step A ls s → Allowed step C ls s →
      Allowed step (fun s l => A s l ∧ C s l) ls s := by
  intro ls
  induction ls with
  | nil => intro s _ _; trivial
  | cons l ls ih =>
    rintro s ⟨hA, hrest⟩ ⟨hC, hrest'⟩
    exact ⟨⟨hA, hC⟩, fun r hr => ih (hrest r hr) (hrest' r hr)⟩

lemma Allowed.of_prefix {A : S → L → Prop} {ls ls' : List L} :
    ∀ {s : S}, Allowed step A (ls ++ ls') s → Allowed step A ls s := by
  induction ls with
  | nil => exact fun _ => trivial
  | cons l ls ih => exact fun hA => ⟨hA.1, fun r hr => ih (hA.2 r hr)⟩

lemma Allowed.of_append {A : S → L → Prop} {ls ls' : List L} :
    ∀ {s : S} {q : S × List O}, Allowed step A (ls ++ ls') s → exec step ls s = some q →
      Allowed step A ls s ∧ Allowed step A ls' q.1 := by
  induction ls with
  | nil =>
    intro s q hA hq
    obtain rfl : (s, []) = q := Option.some.inj hq
    exact ⟨trivial, hA⟩
  | cons l ls ih =>
    rintro s q ⟨hA, hrest⟩ hq
    obtain ⟨r, r', hr, hr', rfl⟩ := exec_cons_eq_some.1 hq
    obtain ⟨hfirst, hlast⟩ := ih (hrest r hr) hr'
    refine ⟨⟨hA, fun r₁ hr₁ => ?_⟩, hlast⟩
    obtain rfl := Option.some.inj (hr.symm.trans hr₁)
    exact hfirst

/-- A program that carries more than another one, but does what that does. -/
lemma exec_project {S' : Type*} {step' : L → S' → Option (S' × List O)} (proj : S' → S)
    (hproj : ∀ l s r, step' l s = some r → step l (proj s) = some (proj r.1, r.2)) :
    ∀ {ls : List L} {s : S'} {q : S' × List O}, exec step' ls s = some q →
      exec step ls (proj s) = some (proj q.1, q.2) := by
  intro ls
  induction ls with
  | nil =>
    intro s q hq
    obtain rfl : (s, []) = q := Option.some.inj hq
    rfl
  | cons l ls ih =>
    intro s q hq
    obtain ⟨r, r', hr, hr', rfl⟩ := exec_cons_eq_some.1 hq
    exact exec_cons_eq_some.2 ⟨_, _, hproj l s r hr, ih hr', rfl⟩

lemma Allowed.project {S' : Type*} {step' : L → S' → Option (S' × List O)} {A : S → L → Prop}
    (proj : S' → S) (hproj : ∀ l s r, step l (proj s) = some r →
      ∃ r', step' l s = some r' ∧ proj r'.1 = r.1) :
    ∀ {ls : List L} {s : S'}, Allowed step' (fun s l => A (proj s) l) ls s →
      Allowed step A ls (proj s) := by
  intro ls
  induction ls with
  | nil => intro s _; trivial
  | cons l ls ih =>
    rintro s ⟨hA, hrest⟩
    refine ⟨hA, fun r hr => ?_⟩
    obtain ⟨r', hr', heq⟩ := hproj l s r hr
    rw [← heq]
    exact ih (hrest r' hr')

lemma Allowed.and_forall {A : S → L → Prop} {D : L → Prop} :
    ∀ {ls : List L} {s : S}, Allowed step A ls s → (∀ l ∈ ls, D l) →
      Allowed step (fun s l => A s l ∧ D l) ls s := by
  intro ls
  induction ls with
  | nil => intro s _ _; trivial
  | cons l ls ih =>
    rintro s ⟨hA, hrest⟩ hD
    rw [List.forall_mem_cons] at hD
    exact ⟨⟨hA, hD.1⟩, fun r hr => ih (hrest r hr) hD.2⟩

/-! ## From one step to a run -/

section Rules

variable {A C : S → L → Prop} {P : S → L → S × List O → Prop} (Inv : S → Prop)

/-- An invariant holds at the end of a run. -/
theorem exec_inv (hstep : ∀ s l r, Inv s → A s l → step l s = some r → Inv r.1) :
    ∀ {ls : List L} {s : S} {q : S × List O}, Inv s → Allowed step A ls s →
      exec step ls s = some q → Inv q.1 := by
  intro ls
  induction ls with
  | nil =>
    intro s q hs _ hq
    obtain rfl : (s, []) = q := by simpa using hq
    exact hs
  | cons l ls ih =>
    intro s q hs hA hq
    obtain ⟨r, r', hr, hr', rfl⟩ := exec_cons_eq_some.1 hq
    have hI : Inv r'.1 := ih (hstep s l r hs hA.1 hr) (hA.2 r hr) hr'
    exact hI

/-- The rule for runs: where an invariant makes every allowed step defined and right, and is
itself preserved, every allowed run is right throughout. -/
theorem Throughout.of_inv
    (hstep : ∀ s l, Inv s → A s l → ∃ r, step l s = some r ∧ P s l r ∧ Inv r.1) :
    ∀ {ls : List L} {s : S}, Inv s → Allowed step A ls s → Throughout step P ls s := by
  intro ls
  induction ls with
  | nil => intro s _ _; trivial
  | cons l ls ih =>
    intro s hs hA
    obtain ⟨r, hr, hP, hI⟩ := hstep s l hs hA.1
    exact ⟨r, hr, hP, ih hI (hA.2 r hr)⟩

/-- The rule for exact conditions: where one step is right exactly when it meets `C`, and the
steps that meet `C` preserve the invariant this rests on, a run is right throughout exactly
when all its steps meet `C`. -/
theorem throughout_iff_allowed
    (hiff : ∀ s l, Inv s → A s l → ((∃ r, step l s = some r ∧ P s l r) ↔ C s l))
    (hinv : ∀ s l r, Inv s → A s l → C s l → step l s = some r → Inv r.1) :
    ∀ {ls : List L} {s : S}, Inv s → Allowed step A ls s →
      (Throughout step P ls s ↔ Allowed step C ls s) := by
  intro ls
  induction ls with
  | nil => intro s _ _; simp
  | cons l ls ih =>
    intro s hs hA
    constructor
    · rintro ⟨r, hr, hP, hrest⟩
      have hC : C s l := (hiff s l hs hA.1).1 ⟨r, hr, hP⟩
      refine ⟨hC, fun r' hr' => ?_⟩
      obtain rfl : r = r' := Option.some.inj (hr.symm.trans hr')
      exact (ih (hinv s l r hs hA.1 hC hr) (hA.2 r hr)).1 hrest
    · rintro ⟨hC, hrest⟩
      obtain ⟨r, hr, hP⟩ := (hiff s l hs hA.1).2 hC
      exact ⟨r, hr, hP, (ih (hinv s l r hs hA.1 hC hr) (hA.2 r hr)).2 (hrest r hr)⟩

/-- Two conditions that agree on the states of an invariant hold throughout the same runs. -/
theorem allowed_congr (hiff : ∀ s l, Inv s → (A s l ↔ C s l))
    (hinv : ∀ s l r, Inv s → C s l → step l s = some r → Inv r.1) :
    ∀ {ls : List L} {s : S}, Inv s → (Allowed step A ls s ↔ Allowed step C ls s) := by
  intro ls
  induction ls with
  | nil => intro s _; simp
  | cons l ls ih =>
    intro s hs
    rw [allowed_cons, allowed_cons, hiff s l hs]
    refine and_congr_right fun hC => forall₂_congr fun r hr => ?_
    exact ih (hinv s l r hs hC hr)

/-- A condition on the labels alone, along a run in which every step that meets it is
defined. -/
theorem allowed_iff_forall {D : L → Prop}
    (hdef : ∀ s l, Inv s → A s l → D l → ∃ r, step l s = some r ∧ Inv r.1) :
    ∀ {ls : List L} {s : S}, Inv s → Allowed step A ls s →
      (Allowed step (fun _ l => D l) ls s ↔ ∀ l ∈ ls, D l) := by
  intro ls
  induction ls with
  | nil => intro s _ _; simp
  | cons l ls ih =>
    intro s hs hA
    rw [List.forall_mem_cons]
    refine and_congr_right fun hD => ?_
    obtain ⟨r, hr, hI⟩ := hdef s l hs hA.1 hD
    rw [← ih hI (hA.2 r hr)]
    constructor
    · intro h
      exact h r hr
    · intro h r' hr'
      obtain rfl : r = r' := Option.some.inj (hr.symm.trans hr')
      exact h

/-- A run that is right throughout is defined, and an invariant that being right implies holds
at its end. -/
theorem Throughout.exec_inv (hP : ∀ s l r, P s l r → Inv r.1) :
    ∀ {ls : List L} {s : S}, Inv s → Throughout step P ls s →
      ∃ q, exec step ls s = some q ∧ Inv q.1 := by
  intro ls
  induction ls with
  | nil => intro s hs _; exact ⟨(s, []), rfl, hs⟩
  | cons l ls ih =>
    rintro s - ⟨r, hr, hright, hrest⟩
    obtain ⟨q, hq, hI⟩ := ih (hP s l r hright) hrest
    exact ⟨(q.1, r.2 ++ q.2), exec_cons_eq_some.2 ⟨r, q, hr, hq, rfl⟩, hI⟩

/-- An invariant holds at the end of a run, and a property of outputs that every step has holds of
all outputs of the run. -/
theorem exec_inv_outputs {D : O → Prop}
    (hstep : ∀ s l r, Inv s → A s l → step l s = some r → Inv r.1 ∧ ∀ o ∈ r.2, D o) :
    ∀ {ls : List L} {s : S} {q : S × List O}, Inv s → Allowed step A ls s →
      exec step ls s = some q → Inv q.1 ∧ ∀ o ∈ q.2, D o := by
  intro ls
  induction ls with
  | nil =>
    intro s q hs _ hq
    obtain rfl : (s, []) = q := by simpa using hq
    exact ⟨hs, fun o ho => absurd ho List.not_mem_nil⟩
  | cons l ls ih =>
    intro s q hs hA hq
    obtain ⟨r, r', hr, hr', rfl⟩ := exec_cons_eq_some.1 hq
    obtain ⟨hI, hD⟩ := hstep s l r hs hA.1 hr
    obtain ⟨hI', hD'⟩ := ih hI (hA.2 r hr) hr'
    refine ⟨hI', fun o ho => ?_⟩
    rcases List.mem_append.1 ho with ho | ho
    · exact hD o ho
    · exact hD' o ho

/-- An invariant of the state and the record of all outputs. -/
theorem exec_inv_record (Inv : S × List O → Prop)
    (hstep : ∀ s h l r, Inv (s, h) → A s l → step l s = some r → Inv (r.1, h ++ r.2)) :
    ∀ {ls : List L} {s : S} {h : List O} {q : S × List O}, Inv (s, h) → Allowed step A ls s →
      exec step ls s = some q → Inv (q.1, h ++ q.2) := by
  intro ls
  induction ls with
  | nil =>
    intro s h q hs _ hq
    obtain rfl : (s, []) = q := Option.some.inj hq
    rwa [List.append_nil]
  | cons l ls ih =>
    intro s h q hs hA hq
    obtain ⟨r, r', hr, hr', rfl⟩ := exec_cons_eq_some.1 hq
    rw [← List.append_assoc]
    exact ih (hstep s h l r hs hA.1 hr) (hA.2 r hr) hr'

end Rules

/-! ## Defined runs -/

/-- A run is defined exactly if every step of it is. -/
lemma exec_ne_none_iff {ls : List L} {s : S} :
    exec step ls s ≠ none ↔ Throughout step (fun _ _ _ => True) ls s := by
  induction ls generalizing s with
  | nil => simp
  | cons l ls ih =>
    rw [throughout_cons, Option.ne_none_iff_exists']
    constructor
    · rintro ⟨q, hq⟩
      obtain ⟨r, r', hr, hr', -⟩ := exec_cons_eq_some.1 hq
      exact ⟨r, hr, trivial, ih.1 (by rw [hr']; exact Option.some_ne_none _)⟩
    · rintro ⟨r, hr, -, hrest⟩
      obtain ⟨r', hr'⟩ := Option.ne_none_iff_exists'.1 (ih.2 hrest)
      exact ⟨_, exec_cons_eq_some.2 ⟨r, r', hr, hr', rfl⟩⟩

/-- Where the steps that an invariant allows are defined exactly under `C`, so are the runs. -/
lemma exec_ne_none_iff_allowed {A C : S → L → Prop} (Inv : S → Prop)
    (hiff : ∀ s l, Inv s → A s l → (step l s ≠ none ↔ C s l))
    (hinv : ∀ s l r, Inv s → A s l → step l s = some r → Inv r.1) {ls : List L} {s : S}
    (hs : Inv s) (hA : Allowed step A ls s) :
    exec step ls s ≠ none ↔ Allowed step C ls s := by
  rw [exec_ne_none_iff]
  refine throughout_iff_allowed Inv (fun s l hs hl => ?_)
    (fun s l r hs hl _ hr => hinv s l r hs hl hr) hs hA
  rw [← hiff s l hs hl, Option.ne_none_iff_exists']
  simp

/-! ## Loops -/

section Loop

variable {R : Type*}

/-- A loop of at most `fuel` rounds.  A round leads to the head of the loop again, leaves the loop,
or is undefined. -/
def runLoop (round : S → Option (S ⊕ R)) : ℕ → S → Option R
  | 0, _ => none
  | fuel + 1, s =>
    match round s with
    | some (.inl s) => runLoop round fuel s
    | some (.inr r) => some r
    | none => none

/-- The states that the loop has at its head. -/
def loopHeads (round : S → Option (S ⊕ R)) : ℕ → S → List S
  | 0, _ => []
  | fuel + 1, s =>
    s ::
      match round s with
      | some (.inl s) => loopHeads round fuel s
      | _ => []

variable {round : S → Option (S ⊕ R)} {s : S}

/-- The rule for what holds at the head of a loop. -/
lemma forall_mem_loopHeads (Inv : S → Prop)
    (hinv : ∀ s s', Inv s → round s = some (.inl s') → Inv s') :
    ∀ {fuel : ℕ} {s : S}, Inv s → ∀ s' ∈ loopHeads round fuel s, Inv s' := by
  intro fuel
  induction fuel with
  | zero => intro s _ s' hs'; cases hs'
  | succ fuel ih =>
    intro s hs
    rw [loopHeads, List.forall_mem_cons]
    refine ⟨hs, ?_⟩
    split
    · rename_i s₁ hs₁
      exact ih (hinv s s₁ hs hs₁)
    · exact fun s' hs' => absurd hs' List.not_mem_nil

end Loop

end LibeventLearn.Lib
