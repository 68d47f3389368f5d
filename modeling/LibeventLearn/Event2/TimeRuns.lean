import LibeventLearn.Event2.Time
import LibeventLearn.Lib.Run

/-!
# Programs on time values

The macros on `struct timeval` as the instructions of a program on time values in memory, with any
of the pointers equal.  Such a program computes with microseconds, and its tests are tests of
these, exactly as long as no difference borrows a second.
-/

namespace LibeventLearn.Event2

open Lib

/-- `evutil_timeclear`. -/
def evutilTimeclear (tvp : Addr) (m : TimeMem) : TimeMem := setSec tvp 0 (setUsec tvp 0 m)

/-- `evutil_timeriset`. -/
def evutilTimeriset (t : Timeval) : Bool := t.tvSec != 0 || t.tvUsec != 0

/-- A use of one of the macros. -/
inductive TimeOp where
  | timeradd (tvp uvp vvp : Addr)
  | timersub (tvp uvp vvp : Addr)
  | timeclear (tvp : Addr)
  | timercmp (tvp uvp : Addr) (cmp : CmpOp)
  | timeriset (tvp : Addr)

/-- What it does to the memory, and what a test yields. -/
def timeStep : TimeOp → TimeMem → Option (TimeMem × List Bool)
  | .timeradd tvp uvp vvp, m => (evutilTimeradd tvp uvp vvp m).map fun m => (m, [])
  | .timersub tvp uvp vvp, m => (evutilTimersub tvp uvp vvp m).map fun m => (m, [])
  | .timeclear tvp, m => some (evutilTimeclear tvp m, [])
  | .timercmp tvp uvp cmp, m => some (m, [evutilTimercmp (m tvp) (m uvp) cmp.eval])
  | .timeriset tvp, m => some (m, [evutilTimeriset (m tvp)])

/-! ## What a program is for -/

/-- Counts of microseconds in the place of the time values. -/
abbrev Counts := Addr → ℤ

/-- What a macro should do. -/
def TimeOp.count : TimeOp → Counts → Counts × List Bool
  | .timeradd tvp uvp vvp, f => (Function.update f vvp (f tvp + f uvp), [])
  | .timersub tvp uvp vvp, f => (Function.update f vvp (f tvp - f uvp), [])
  | .timeclear tvp, f => (Function.update f tvp 0, [])
  | .timercmp tvp uvp cmp, f => (f, [cmp.eval (f tvp) (f uvp)])
  | .timeriset tvp, f => (f, [decide (f tvp ≠ 0)])

/-- The memory, and the counts that it should stand for. -/
def countedStep (op : TimeOp) (s : TimeMem × Counts) : Option ((TimeMem × Counts) × List Bool) :=
  (timeStep op s.1).map fun r => ((r.1, (op.count s.2).1), r.2)

/-- The values are normalised and have these counts. -/
def Counted (s : TimeMem × Counts) : Prop := ∀ x, Normalised (s.1 x) ∧ (s.1 x).us = s.2 x

/-- What is expected of a use of a macro. -/
structure CountedRight (s : TimeMem × Counts) (op : TimeOp)
    (r : (TimeMem × Counts) × List Bool) : Prop where
  counted : Counted r.1
  tests : r.2 = (op.count s.2).2

/-- The seconds of the result do not overflow. -/
def TimeFits (s : TimeMem × Counts) : TimeOp → Prop
  | .timeradd tvp uvp _ => SumFits (s.1 tvp) (s.1 uvp)
  | .timersub tvp uvp _ => DiffFits (s.1 tvp) (s.1 uvp)
  | _ => True

/-- No second is borrowed. -/
def NoBorrow (s : TimeMem × Counts) : TimeOp → Prop
  | .timersub tvp uvp _ => (s.1 uvp).tvUsec ≤ (s.1 tvp).tvUsec
  | _ => True

variable {s : TimeMem × Counts} {op : TimeOp} {t c : Timeval} {m : TimeMem} {tvp x : Addr}

/-! ## One macro -/

lemma evutilTimeclear_eq : evutilTimeclear tvp m = Function.update m tvp ⟨0, 0⟩ := by
  rw [evutilTimeclear, setSec, setUsec, Function.update_self, Function.update_idem]

/-- A normalised value is set unless its count is 0. -/
lemma evutilTimeriset_eq (h : Normalised t) : evutilTimeriset t = decide (t.us ≠ 0) := by
  have h0 := h.nonneg
  have h1 := h.lt
  rw [evutilTimeriset, Timeval.us, Bool.eq_iff_iff]
  simp only [Bool.or_eq_true, bne_iff_ne, decide_eq_true_eq]
  omega

namespace Counted

/-- A value is stored. -/
lemma store (h : Counted s) (vvp : Addr) (hc : Normalised c) :
    Counted (Function.update s.1 vvp c, Function.update s.2 vvp c.us) := by
  intro x
  rcases eq_or_ne x vvp with rfl | hne
  · simp only [Function.update_self]
    exact ⟨hc, trivial⟩
  · simp only [Function.update_of_ne hne]
    exact h x

/-- A difference is right exactly if it borrows nothing. -/
lemma difference_iff (h : Counted s) (tvp uvp vvp : Addr)
    (hfits : DiffFits (s.1 tvp) (s.1 uvp)) :
    (∃ r, countedStep (.timersub tvp uvp vvp) s = some r ∧
        CountedRight s (.timersub tvp uvp vvp) r) ↔ (s.1 uvp).tvUsec ≤ (s.1 tvp).tvUsec := by
  obtain ⟨ht, hut⟩ := h tvp
  obtain ⟨hu, huu⟩ := h uvp
  rw [← subRight_iff ht hu hfits]
  constructor
  · rintro ⟨r, hr, hright⟩
    obtain ⟨q, hq, rfl⟩ := Option.map_eq_some_iff.1 hr
    obtain ⟨m, hm, rfl⟩ := Option.map_eq_some_iff.1 hq
    rw [evutilTimersub_eq, Option.map_eq_some_iff] at hm
    obtain ⟨c, hc, rfl⟩ := hm
    obtain ⟨hn, hus⟩ := hright.counted vvp
    simp only [TimeOp.count, Function.update_self] at hn hus
    exact ⟨c, yields_timersub_iff.2 hc, hn, by rw [hus, hut, huu]⟩
  · rintro ⟨c, hc, hn, hus⟩
    refine ⟨((Function.update s.1 vvp c, Function.update s.2 vvp (s.2 tvp - s.2 uvp)), []), ?_, ?_,
      rfl⟩
    · rw [countedStep, timeStep, evutilTimersub_eq, yields_timersub_iff.1 hc]
      rfl
    · rw [← hut, ← huu, ← hus]
      exact h.store vvp hn

/-- **One macro.** -/
lemma step_iff (h : Counted s) (hfits : TimeFits s op) :
    (∃ r, countedStep op s = some r ∧ CountedRight s op r) ↔ NoBorrow s op := by
  cases op with
  | timersub tvp uvp vvp => exact h.difference_iff tvp uvp vvp hfits
  | timeradd tvp uvp vvp =>
    obtain ⟨ht, hut⟩ := h tvp
    obtain ⟨hu, huu⟩ := h uvp
    obtain ⟨c, hc, hn, hus⟩ := exists_timeradd ht hu hfits
    refine iff_of_true
      ⟨((Function.update s.1 vvp c, Function.update s.2 vvp (s.2 tvp + s.2 uvp)), []), ?_, ?_, rfl⟩
      trivial
    · rw [countedStep, timeStep, evutilTimeradd_eq, hc]
      rfl
    · rw [← hut, ← huu, ← hus]
      exact h.store vvp hn
  | timeclear tvp =>
    refine iff_of_true ⟨_, rfl, ?_, rfl⟩ trivial
    show Counted (evutilTimeclear tvp s.1, Function.update s.2 tvp 0)
    rw [evutilTimeclear_eq]
    exact h.store tvp (c := ⟨0, 0⟩) (by decide)
  | timercmp tvp uvp cmp =>
    obtain ⟨ht, hut⟩ := h tvp
    obtain ⟨hu, huu⟩ := h uvp
    refine iff_of_true ⟨_, rfl, h, ?_⟩ trivial
    show [evutilTimercmp (s.1 tvp) (s.1 uvp) cmp.eval] = [cmp.eval (s.2 tvp) (s.2 uvp)]
    rw [evutilTimercmp_eq ht hu, hut, huu]
  | timeriset tvp =>
    obtain ⟨ht, hut⟩ := h tvp
    refine iff_of_true ⟨_, rfl, h, ?_⟩ trivial
    show [evutilTimeriset (s.1 tvp)] = [decide (s.2 tvp ≠ 0)]
    rw [evutilTimeriset_eq ht, hut]

end Counted

/-! ## Programs -/

/-- **Programs on time values compute with microseconds, exactly as long as nothing is borrowed.**
In a program of the macros on normalised time values, whose seconds do not overflow, every value
stays normalised and has the count of microseconds it should have, and every test yields what it
should, if and only if no `evutil_timersub` has to borrow a second. -/
theorem countedRight_iff_noBorrow (m : TimeMem) (hm : ∀ x, Normalised (m x)) (ops : List TimeOp)
    (hfits : Allowed countedStep TimeFits ops (m, fun x => (m x).us)) :
    Throughout countedStep CountedRight ops (m, fun x => (m x).us) ↔
      Allowed countedStep NoBorrow ops (m, fun x => (m x).us) := by
  refine throughout_iff_allowed Counted (fun s op h hf => h.step_iff hf)
    (fun s op r h hf hno hr => ?_) (fun x => ⟨hm x, rfl⟩) hfits
  obtain ⟨r', hr', hright⟩ := (h.step_iff hf).2 hno
  obtain rfl := Option.some.inj (hr'.symm.trans hr)
  exact hright.counted

/-- 0.6 s is taken away from 0.6 s, and what is left is tested. -/
theorem countedRight_iff_noBorrow_zero :
    Throughout countedStep CountedRight [.timersub 0 1 2, .timeriset 2]
      (fun _ => ⟨0, 600000⟩, fun _ => 600000) := by
  have hfits : DiffFits ⟨0, 600000⟩ ⟨0, 600000⟩ := by decide
  exact (countedRight_iff_noBorrow (fun _ => ⟨0, 600000⟩) (fun _ => by decide)
    [.timersub 0 1 2, .timeriset 2] ⟨hfits, fun _ _ => ⟨trivial, fun _ _ => trivial⟩⟩).2
    ⟨le_rfl, fun _ _ => ⟨trivial, fun _ _ => trivial⟩⟩

end LibeventLearn.Event2
