import LibeventLearn.Lib.Run
import Mathlib.Data.List.Forall2

/-!
# Simulation

A specification is a transition system whose steps carry events.  A program refines it along a
relation between the two kinds of states if whatever a step of the program outputs is, read as
events, something that the specification can go through from the related state.  Then the same
holds of whole runs.

A system of many copies of a small one, each with its key, is seen copy by copy.

Two runs can be compared in the same way: as long as steps with labels that are alike keep related
states related and output the same, seen by some observer, so do runs.
-/

namespace LibeventLearn.Lib

variable {S L O A E : Type*}

/-- The lists of events that a transition system can go through. -/
inductive Trace (Step : A → E → A → Prop) : A → List E → A → Prop
  | nil (a : A) : Trace Step a [] a
  | cons {a b c : A} {e : E} {es : List E} (h : Step a e b) (hs : Trace Step b es c) :
      Trace Step a (e :: es) c

namespace Trace

variable {Step : A → E → A → Prop} {a b c : A} {e : E} {es es' : List E}

lemma single (h : Step a e b) : Trace Step a [e] b := .cons h (.nil b)

lemma append (h : Trace Step a es b) (h' : Trace Step b es' c) : Trace Step a (es ++ es') c := by
  induction h with
  | nil a => exact h'
  | cons hstep _ ih => exact .cons hstep (ih h')

lemma of_append (h : Trace Step a (es ++ es') c) :
    ∃ b, Trace Step a es b ∧ Trace Step b es' c := by
  induction es generalizing a with
  | nil => exact ⟨a, .nil a, h⟩
  | cons e es ih =>
    cases h with
    | cons hstep hs =>
      obtain ⟨b, hb, hc⟩ := ih hs
      exact ⟨b, .cons hstep hb, hc⟩

/-- A quantity that some events raise by one and others lower by one. -/
theorem balance {f : A → ℕ} {inc dec : E → Bool}
    (h : ∀ a e b, Step a e b → f a + (inc e).toNat = f b + (dec e).toNat)
    (ht : Trace Step a es b) : f a + es.countP inc = f b + es.countP dec := by
  have hcons : ∀ (p : E → Bool) (e : E) (es : List E),
      (e :: es).countP p = (p e).toNat + es.countP p := by
    intro p e es
    cases hp : p e <;> simp [hp, Nat.add_comm]
  induction ht with
  | nil a => rfl
  | cons hstep _ ih =>
    have hbalance := h _ _ _ hstep
    rw [hcons, hcons]
    omega

/-- Some events make something due and others pay, in order: what was owed before and has become
due since is what has been paid and what is owed now. -/
theorem settle {B : Type*} {owed : A → List B} {due paid : E → List B}
    (h : ∀ a e b, Step a e b → owed a ++ due e = paid e ++ owed b)
    (ht : Trace Step a es b) : owed a ++ es.flatMap due = es.flatMap paid ++ owed b := by
  induction ht with
  | nil a => rw [List.flatMap_nil, List.flatMap_nil, List.append_nil, List.nil_append]
  | cons hstep _ ih =>
    rw [List.flatMap_cons, List.flatMap_cons, ← List.append_assoc, h _ _ _ hstep,
      List.append_assoc, ih, List.append_assoc]

end Trace

/-! ## Many copies of one system -/

section AtKey

variable {K : Type*} [DecidableEq K] {Step : A → E → A → Prop} {f g : K → A}
  {es : List (K × E)}

/-- A step of one of many copies, each with its key. -/
inductive AtKey (Step : A → E → A → Prop) : (K → A) → K × E → (K → A) → Prop
  | intro {f : K → A} {k : K} {e : E} {b : A} (h : Step (f k) e b) :
      AtKey Step f (k, e) (Function.update f k b)

/-- The events of one copy. -/
def eventsAt (k : K) (es : List (K × E)) : List E :=
  es.filterMap fun x => if x.1 = k then some x.2 else none

lemma eventsAt_cons_self (k : K) (e : E) : eventsAt k ((k, e) :: es) = e :: eventsAt k es :=
  List.filterMap_cons_some (if_pos rfl)

lemma eventsAt_cons_of_ne {k k' : K} (h : k' ≠ k) (e : E) :
    eventsAt k ((k', e) :: es) = eventsAt k es :=
  List.filterMap_cons_none (if_neg h)

/-- Every copy goes through its own events. -/
theorem Trace.atKey (h : Trace (AtKey Step) f es g) (k : K) :
    Trace Step (f k) (eventsAt k es) (g k) := by
  induction h with
  | nil f => exact .nil _
  | @cons f _ _ _ es hstep _ ih =>
    cases hstep with
    | @intro k' e b h =>
      rcases eq_or_ne k' k with rfl | hne
      · rw [Function.update_self] at ih
        rw [eventsAt_cons_self]
        exact .cons h ih
      · rw [Function.update_of_ne hne.symm] at ih
        rwa [eventsAt_cons_of_ne hne]

end AtKey

variable {step : L → S → Option (S × List O)} {Step : A → E → A → Prop}
  {Al : S → L → Prop}

/-- **The rule for simulation.**  `obs` reads the outputs as events, of which some are not
seen. -/
theorem exec_simulates (obs : O → Option E) (R : S → A → Prop)
    (hstep : ∀ s a l r, R s a → Al s l → step l s = some r →
      ∃ a', Trace Step a (r.2.filterMap obs) a' ∧ R r.1 a') :
    ∀ {ls : List L} {s : S} {a : A} {q : S × List O}, R s a → Allowed step Al ls s →
      exec step ls s = some q → ∃ a', Trace Step a (q.2.filterMap obs) a' ∧ R q.1 a' := by
  intro ls
  induction ls with
  | nil =>
    intro s a q hR _ hq
    obtain rfl : (s, []) = q := by simpa using hq
    exact ⟨a, .nil a, hR⟩
  | cons l ls ih =>
    intro s a q hR hA hq
    obtain ⟨r, r', hr, hr', rfl⟩ := exec_cons_eq_some.1 hq
    obtain ⟨b, ht, hR'⟩ := hstep s a l r hR hA.1 hr
    obtain ⟨c, ht', hR''⟩ := ih hR' (hA.2 r hr) hr'
    exact ⟨c, by rw [List.filterMap_append]; exact ht.append ht', hR''⟩

/-- **The rule for two runs.** -/
theorem exec_agree {S' L' : Type*} {step' : L' → S' → Option (S' × List O)} {Al' : S' → L' → Prop}
    (seen : O → Bool) (Alike : L → L' → Prop) (R : S → S' → Prop)
    (hstep : ∀ s s' l l' r r', R s s' → Alike l l' → Al s l → Al' s' l' → step l s = some r →
      step' l' s' = some r' → R r.1 r'.1 ∧ r.2.filter seen = r'.2.filter seen)
    {ls : List L} {ls' : List L'} (hls : List.Forall₂ Alike ls ls') :
    ∀ {s : S} {s' : S'} {q : S × List O} {q' : S' × List O}, R s s' → Allowed step Al ls s →
      Allowed step' Al' ls' s' → exec step ls s = some q → exec step' ls' s' = some q' →
        R q.1 q'.1 ∧ q.2.filter seen = q'.2.filter seen := by
  induction hls with
  | nil =>
    intro s s' q q' hR _ _ hq hq'
    obtain rfl : (s, []) = q := Option.some.inj hq
    obtain rfl : (s', []) = q' := Option.some.inj hq'
    exact ⟨hR, rfl⟩
  | cons hl _ ih =>
    intro s s' q q' hR hA hA' hq hq'
    obtain ⟨r₁, r₂, hr₁, hr₂, rfl⟩ := exec_cons_eq_some.1 hq
    obtain ⟨r₁', r₂', hr₁', hr₂', rfl⟩ := exec_cons_eq_some.1 hq'
    obtain ⟨hR₁, hseen⟩ := hstep _ _ _ _ _ _ hR hl hA.1 hA'.1 hr₁ hr₁'
    obtain ⟨hR₂, hseen'⟩ := ih hR₁ (hA.2 _ hr₁) (hA'.2 _ hr₁') hr₂ hr₂'
    exact ⟨hR₂, by rw [List.filter_append, List.filter_append, hseen, hseen']⟩

end LibeventLearn.Lib
