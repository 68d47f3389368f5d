import LibeventLearn.Event2.MinHeap
import Mathlib.Order.RelClasses

/-!
# Time values

The macros on `struct timeval` of `util.h`.  They work on memory, and the destination may be one
of the operands.  A time value counts microseconds; the order of time is the order of these
counts, and sums have the sum of the counts.  Differences have the difference of the counts only
if no second has to be borrowed: the macro then takes another million microseconds away, instead
of adding it.
-/

namespace LibeventLearn.Event2

open Lib

/-- Where a `struct timeval` may be. -/
abbrev Addr := ℕ

/-- The time values in memory. -/
abbrev TimeMem := Addr → Timeval

/-- `(tv)->tv_sec = sec`. -/
def setSec (tv : Addr) (sec : ℤ) (m : TimeMem) : TimeMem :=
  Function.update m tv { m tv with tvSec := sec }

/-- `(tv)->tv_usec = usec`. -/
def setUsec (tv : Addr) (usec : ℤ) (m : TimeMem) : TimeMem :=
  Function.update m tv { m tv with tvUsec := usec }

/-- `evutil_timeradd`. -/
def evutilTimeradd (tvp uvp vvp : Addr) (m : TimeMem) : Option TimeMem := do
  let sec ← addInt64 (m tvp).tvSec (m uvp).tvSec
  let m := setSec vvp sec m
  let usec ← addInt64 (m tvp).tvUsec (m uvp).tvUsec
  let m := setUsec vvp usec m
  if (m vvp).tvUsec ≥ 1000000 then
    let sec ← addInt64 (m vvp).tvSec 1
    let m := setSec vvp sec m
    let usec ← subInt64 (m vvp).tvUsec 1000000
    some (setUsec vvp usec m)
  else some m

/-- `evutil_timersub`. -/
def evutilTimersub (tvp uvp vvp : Addr) (m : TimeMem) : Option TimeMem := do
  let sec ← subInt64 (m tvp).tvSec (m uvp).tvSec
  let m := setSec vvp sec m
  let usec ← subInt64 (m tvp).tvUsec (m uvp).tvUsec
  let m := setUsec vvp usec m
  if (m vvp).tvUsec < 0 then
    let sec ← subInt64 (m vvp).tvSec 1
    let m := setSec vvp sec m
    -- the borrowed second is subtracted once more
    let usec ← subInt64 (m vvp).tvUsec 1000000
    some (setUsec vvp usec m)
  else some m

/-- The operators that `evutil_timercmp` is used with. -/
inductive CmpOp where
  | lt
  | le
  | eq
  | ne
  | ge
  | gt

/-- The operator on numbers. -/
def CmpOp.eval : CmpOp → ℤ → ℤ → Bool
  | .lt, x, y => decide (x < y)
  | .le, x, y => decide (x ≤ y)
  | .eq, x, y => decide (x = y)
  | .ne, x, y => decide (x ≠ y)
  | .ge, x, y => decide (x ≥ y)
  | .gt, x, y => decide (x > y)

/-! ## What a time value stands for -/

/-- The microseconds of a time value. -/
def Timeval.us (t : Timeval) : ℤ := t.tvSec * 10 ^ 6 + t.tvUsec

/-- The microseconds are less than a second. -/
structure Normalised (t : Timeval) : Prop where
  sec : IsInt64 t.tvSec
  nonneg : 0 ≤ t.tvUsec
  lt : t.tvUsec < 10 ^ 6

variable {a b c d t : Timeval} {m : TimeMem} {tvp uvp vvp x : Addr}

/-- The seconds of the sum do not overflow. -/
def SumFits (a b : Timeval) : Prop :=
  IsInt64 (a.tvSec + b.tvSec) ∧ (10 ^ 6 ≤ a.tvUsec + b.tvUsec → IsInt64 (a.tvSec + b.tvSec + 1))

/-- The seconds of the difference do not overflow. -/
def DiffFits (a b : Timeval) : Prop :=
  IsInt64 (a.tvSec - b.tvSec) ∧ (a.tvUsec < b.tvUsec → IsInt64 (a.tvSec - b.tvSec - 1))

instance : Decidable (Normalised t) :=
  decidable_of_iff (IsInt64 t.tvSec ∧ 0 ≤ t.tvUsec ∧ t.tvUsec < 10 ^ 6)
    ⟨fun h => ⟨h.1, h.2.1, h.2.2⟩, fun h => ⟨h.sec, h.nonneg, h.lt⟩⟩

instance : Decidable (SumFits a b) := inferInstanceAs (Decidable (_ ∧ _))

instance : Decidable (DiffFits a b) := inferInstanceAs (Decidable (_ ∧ _))

/-- The macro stores `c` for the operands `a` and `b` and changes nothing else, whichever of the
three pointers are equal. -/
def Yields (op : Addr → Addr → Addr → TimeMem → Option TimeMem) (a b c : Timeval) : Prop :=
  ∀ tvp uvp vvp m, m tvp = a → m uvp = b → op tvp uvp vvp m = some (Function.update m vvp c)

/-! ## The macros on values -/

@[simp] lemma setSec_tvUsec {sec : ℤ} : (setSec vvp sec m x).tvUsec = (m x).tvUsec := by
  rcases eq_or_ne x vvp with rfl | h
  · rw [setSec, Function.update_self]
  · rw [setSec, Function.update_of_ne h]

/-- Both fields are stored. -/
lemma setUsec_setSec {sec usec : ℤ} :
    setUsec vvp usec (setSec vvp sec m) = Function.update m vvp ⟨sec, usec⟩ := by
  rw [setUsec, setSec, Function.update_self, Function.update_idem]

/-- `evutil_timeradd` as a function of its operands. -/
def timeradd (a b : Timeval) : Option Timeval := do
  let sec ← addInt64 a.tvSec b.tvSec
  let usec ← addInt64 a.tvUsec b.tvUsec
  if usec ≥ 1000000 then
    let sec ← addInt64 sec 1
    let usec ← subInt64 usec 1000000
    some ⟨sec, usec⟩
  else some ⟨sec, usec⟩

/-- `evutil_timersub` as a function of its operands. -/
def timersub (a b : Timeval) : Option Timeval := do
  let sec ← subInt64 a.tvSec b.tvSec
  let usec ← subInt64 a.tvUsec b.tvUsec
  if usec < 0 then
    let sec ← subInt64 sec 1
    let usec ← subInt64 usec 1000000
    some ⟨sec, usec⟩
  else some ⟨sec, usec⟩

section Macro

variable (op : ℤ → ℤ → Option ℤ) (carries : ℤ → Prop) [DecidablePred carries]
  (carrySec carryUsec : ℤ → Option ℤ)

/-- What the two functions have in common: the fields are computed one by one, and then both are
changed again if the microseconds carry or borrow. -/
def fieldwise (a b : Timeval) : Option Timeval := do
  let sec ← op a.tvSec b.tvSec
  let usec ← op a.tvUsec b.tvUsec
  if carries usec then
    let sec ← carrySec sec
    let usec ← carryUsec usec
    some ⟨sec, usec⟩
  else some ⟨sec, usec⟩

/-- Which pointers of a macro are equal does not matter. -/
lemma macro_eq :
    (do let sec ← op (m tvp).tvSec (m uvp).tvSec
        let m := setSec vvp sec m
        let usec ← op (m tvp).tvUsec (m uvp).tvUsec
        let m := setUsec vvp usec m
        if carries (m vvp).tvUsec then
          let sec ← carrySec (m vvp).tvSec
          let m := setSec vvp sec m
          let usec ← carryUsec (m vvp).tvUsec
          some (setUsec vvp usec m)
        else some m) =
      (fieldwise op carries carrySec carryUsec (m tvp) (m uvp)).map (Function.update m vvp) := by
  rw [fieldwise]
  cases op (m tvp).tvSec (m uvp).tvSec with
  | none => rfl
  | some sec =>
    simp only [Option.bind_eq_bind, Option.bind_some, setSec_tvUsec]
    cases op (m tvp).tvUsec (m uvp).tvUsec with
    | none => rfl
    | some usec =>
      simp only [Option.bind_some, setUsec_setSec, Function.update_self]
      split
      · cases carrySec sec with
        | none => rfl
        | some sec' =>
          cases carryUsec usec with
          | none => rfl
          | some usec' => exact congrArg some (Function.update_idem ..)
      · rfl

variable {op carries carrySec carryUsec}

/-- Inversion of such a function. -/
lemma fieldwise_eq_some :
    fieldwise op carries carrySec carryUsec a b = some c ↔
      ∃ sec usec, op a.tvSec b.tvSec = some sec ∧ op a.tvUsec b.tvUsec = some usec ∧
        ((carries usec ∧ carrySec sec = some c.tvSec ∧ carryUsec usec = some c.tvUsec) ∨
          (¬ carries usec ∧ c = ⟨sec, usec⟩)) := by
  simp only [fieldwise, Option.bind_eq_bind, Option.bind_eq_some_iff]
  constructor
  · rintro ⟨sec, hsec, usec, husec, h⟩
    refine ⟨sec, usec, hsec, husec, ?_⟩
    split at h
    · obtain ⟨sec', hsec', usec', husec', hc⟩ := by
        simpa only [Option.bind_eq_some_iff] using h
      obtain rfl := Option.some.inj hc
      exact Or.inl ⟨‹_›, hsec', husec'⟩
    · exact Or.inr ⟨‹_›, (Option.some.inj h).symm⟩
  · rintro ⟨sec, usec, hsec, husec, ⟨hcarry, hsec', husec'⟩ | ⟨hcarry, rfl⟩⟩
    · refine ⟨sec, hsec, usec, husec, ?_⟩
      rw [if_pos hcarry, hsec', Option.bind_some, husec', Option.bind_some]
    · exact ⟨sec, hsec, usec, husec, if_neg hcarry⟩

end Macro

lemma timeradd_eq_fieldwise : timeradd =
    fieldwise addInt64 (· ≥ 1000000) (addInt64 · 1) (subInt64 · 1000000) := rfl

lemma timersub_eq_fieldwise : timersub =
    fieldwise subInt64 (· < 0) (subInt64 · 1) (subInt64 · 1000000) := rfl

lemma evutilTimeradd_eq :
    evutilTimeradd tvp uvp vvp m = (timeradd (m tvp) (m uvp)).map (Function.update m vvp) := by
  rw [timeradd_eq_fieldwise]
  exact macro_eq addInt64 (· ≥ 1000000) (addInt64 · 1) (subInt64 · 1000000)

lemma evutilTimersub_eq :
    evutilTimersub tvp uvp vvp m = (timersub (m tvp) (m uvp)).map (Function.update m vvp) := by
  rw [timersub_eq_fieldwise]
  exact macro_eq subInt64 (· < 0) (subInt64 · 1) (subInt64 · 1000000)

/-- A macro that is such a function yields its values. -/
lemma yields_iff {op : Addr → Addr → Addr → TimeMem → Option TimeMem}
    {f : Timeval → Timeval → Option Timeval}
    (h : ∀ {tvp uvp vvp m}, op tvp uvp vvp m = (f (m tvp) (m uvp)).map (Function.update m vvp)) :
    Yields op a b c ↔ f a b = some c := by
  constructor
  · intro hy
    -- three different pointers to an `a`, a `b` and anything
    have hrun := hy 0 1 2 (fun x => if x = 0 then a else b) rfl rfl
    rw [h, Option.map_eq_some_iff] at hrun
    obtain ⟨c', hc', heq⟩ := hrun
    have hval := congrFun heq 2
    rw [Function.update_self, Function.update_self] at hval
    rw [← hval]
    exact hc'
  · rintro hf tvp uvp vvp m rfl rfl
    rw [h, hf, Option.map_some]

lemma yields_timeradd_iff : Yields evutilTimeradd a b c ↔ timeradd a b = some c :=
  yields_iff evutilTimeradd_eq

lemma yields_timersub_iff : Yields evutilTimersub a b c ↔ timersub a b = some c :=
  yields_iff evutilTimersub_eq

/-! ## Carrying and borrowing -/

/-- A sum carries a second or not. -/
lemma timeradd_eq_some : timeradd a b = some c ↔
    IsInt64 (a.tvSec + b.tvSec) ∧ IsInt64 (a.tvUsec + b.tvUsec) ∧
      ((10 ^ 6 ≤ a.tvUsec + b.tvUsec ∧
          (IsInt64 (a.tvSec + b.tvSec + 1) ∧ c.tvSec = a.tvSec + b.tvSec + 1) ∧
          IsInt64 (a.tvUsec + b.tvUsec - 10 ^ 6) ∧ c.tvUsec = a.tvUsec + b.tvUsec - 10 ^ 6) ∨
        (¬ 10 ^ 6 ≤ a.tvUsec + b.tvUsec ∧
          c = ⟨a.tvSec + b.tvSec, a.tvUsec + b.tvUsec⟩)) := by
  rw [timeradd_eq_fieldwise, fieldwise_eq_some]
  simp only [addInt64_eq_some, subInt64_eq_some]
  constructor
  · rintro ⟨_, _, ⟨hsec, rfl⟩, ⟨husec, rfl⟩, h⟩
    exact ⟨hsec, husec, h⟩
  · rintro ⟨hsec, husec, h⟩
    exact ⟨_, _, ⟨hsec, rfl⟩, ⟨husec, rfl⟩, h⟩

/-- A difference borrows a second or not; one that does is two seconds too small. -/
lemma timersub_eq_some : timersub a b = some c ↔
    IsInt64 (a.tvSec - b.tvSec) ∧ IsInt64 (a.tvUsec - b.tvUsec) ∧
      ((a.tvUsec - b.tvUsec < 0 ∧
          (IsInt64 (a.tvSec - b.tvSec - 1) ∧ c.tvSec = a.tvSec - b.tvSec - 1) ∧
          IsInt64 (a.tvUsec - b.tvUsec - 10 ^ 6) ∧ c.tvUsec = a.tvUsec - b.tvUsec - 10 ^ 6) ∨
        (¬ a.tvUsec - b.tvUsec < 0 ∧
          c = ⟨a.tvSec - b.tvSec, a.tvUsec - b.tvUsec⟩)) := by
  rw [timersub_eq_fieldwise, fieldwise_eq_some]
  simp only [subInt64_eq_some]
  constructor
  · rintro ⟨_, _, ⟨hsec, rfl⟩, ⟨husec, rfl⟩, h⟩
    exact ⟨hsec, husec, h⟩
  · rintro ⟨hsec, husec, h⟩
    exact ⟨_, _, ⟨hsec, rfl⟩, ⟨husec, rfl⟩, h⟩

/-- A sum that does not carry. -/
lemma timeradd_of_lt (hsec : IsInt64 (a.tvSec + b.tvSec)) (husec : IsInt64 (a.tvUsec + b.tvUsec))
    (hlt : a.tvUsec + b.tvUsec < 10 ^ 6) :
    timeradd a b = some ⟨a.tvSec + b.tvSec, a.tvUsec + b.tvUsec⟩ :=
  timeradd_eq_some.2 ⟨hsec, husec, Or.inr ⟨not_le.2 hlt, rfl⟩⟩

/-- A difference that does not borrow. -/
lemma timersub_of_le (hsec : IsInt64 (a.tvSec - b.tvSec)) (husec : IsInt64 (a.tvUsec - b.tvUsec))
    (hle : b.tvUsec ≤ a.tvUsec) :
    timersub a b = some ⟨a.tvSec - b.tvSec, a.tvUsec - b.tvUsec⟩ :=
  timersub_eq_some.2 ⟨hsec, husec, Or.inr ⟨by omega, rfl⟩⟩

/-! ## Sums and the order of time -/

/-- The sum of normalised values is defined if its seconds do not overflow, is normalised, and has
the sum of their microseconds. -/
lemma exists_timeradd (ha : Normalised a) (hb : Normalised b) (hs : SumFits a b) :
    ∃ c, timeradd a b = some c ∧ Normalised c ∧ c.us = a.us + b.us := by
  obtain ⟨hsec, hcarry⟩ := hs
  obtain ⟨-, ha0, ha1⟩ := ha
  obtain ⟨-, hb0, hb1⟩ := hb
  have husec : IsInt64 (a.tvUsec + b.tvUsec) := ⟨by omega, by omega⟩
  simp only [Timeval.us]
  by_cases hge : 10 ^ 6 ≤ a.tvUsec + b.tvUsec
  · have hrest : IsInt64 (a.tvUsec + b.tvUsec - 10 ^ 6) := ⟨by omega, by omega⟩
    refine ⟨⟨a.tvSec + b.tvSec + 1, a.tvUsec + b.tvUsec - 10 ^ 6⟩, ?_,
      ⟨hcarry hge, by simp only; omega, by simp only; omega⟩, by simp only; omega⟩
    exact timeradd_eq_some.2
      ⟨hsec, husec, Or.inl ⟨hge, ⟨hcarry hge, rfl⟩, hrest, rfl⟩⟩
  · exact ⟨_, timeradd_of_lt hsec husec (by omega),
      ⟨hsec, by simp only; omega, by simp only; omega⟩, by simp only; omega⟩

/-- Comparing normalised values is comparing their microseconds. -/
lemma evutilTimercmp_eq (ha : Normalised a) (hb : Normalised b) (op : CmpOp) :
    evutilTimercmp a b op.eval = op.eval a.us b.us := by
  obtain ⟨-, ha0, ha1⟩ := ha
  obtain ⟨-, hb0, hb1⟩ := hb
  rw [evutilTimercmp, Timeval.us, Timeval.us]
  split
  · cases op <;> exact decide_eq_decide.2 (by omega)
  · cases op <;> exact decide_eq_decide.2 (by omega)

/-- `min_heap_elem_greater` orders the events strictly, up to events of the same time. -/
lemma minHeapElemGreater_weakOrder {E : Type} (s : Store E) :
    IsStrictWeakOrder E (fun x y => minHeapElemGreater x y s = true) := by
  simp only [minHeapElemGreater_iff]
  constructor
  · rintro x y z ⟨hxy, hyx⟩ ⟨hyz, hzy⟩
    rw [not_lt] at hxy hyx hyz hzy
    exact ⟨not_lt.2 (hxy.trans hyz), not_lt.2 (hzy.trans hyx)⟩

/-- **Sums and comparisons of time values are those of their microseconds**, whichever of the
three pointers of `evutil_timeradd` are equal, and adding keeps the order. -/
theorem timeradd_timercmp {E : Type} (ha : Normalised a) (hb : Normalised b)
    (hc : Normalised c) (hd : Normalised d) (hab : SumFits a b) (hcd : SumFits c d)
    (s : Store E) :
    (∃ v w, Yields evutilTimeradd a b v ∧ Normalised v ∧ v.us = a.us + b.us ∧
        Yields evutilTimeradd c d w ∧
        (evutilTimercmp a c CmpOp.gt.eval = false → evutilTimercmp b d CmpOp.gt.eval = false →
          evutilTimercmp v w CmpOp.gt.eval = false)) ∧
      (∀ op : CmpOp, evutilTimercmp a b op.eval = op.eval a.us b.us) ∧
      IsStrictWeakOrder E (fun x y => minHeapElemGreater x y s = true) ∧
      ∀ x y, Normalised (s.ev x).evTimeout → Normalised (s.ev y).evTimeout →
        (minHeapElemGreater x y s = true ↔ (s.ev y).evTimeout.us < (s.ev x).evTimeout.us) := by
  obtain ⟨v, hv, hnv, huv⟩ := exists_timeradd ha hb hab
  obtain ⟨w, hw, hnw, huw⟩ := exists_timeradd hc hd hcd
  refine ⟨⟨v, w, yields_timeradd_iff.2 hv, hnv, huv, yields_timeradd_iff.2 hw, fun hac hbd => ?_⟩,
    evutilTimercmp_eq ha hb, minHeapElemGreater_weakOrder s, fun x y hx hy => ?_⟩
  · rw [evutilTimercmp_eq ha hc, CmpOp.eval, decide_eq_false_iff_not, not_lt] at hac
    rw [evutilTimercmp_eq hb hd, CmpOp.eval, decide_eq_false_iff_not, not_lt] at hbd
    rw [evutilTimercmp_eq hnv hnw, CmpOp.eval, decide_eq_false_iff_not, not_lt, huv, huw]
    exact Int.add_le_add hac hbd
  · have hcmp : minHeapElemGreater x y s = CmpOp.gt.eval (s.ev x).evTimeout.us
        (s.ev y).evTimeout.us := evutilTimercmp_eq hx hy .gt
    rw [hcmp, CmpOp.eval, decide_eq_true_iff]

/-- A sum that carries. -/
theorem timeradd_timercmp_carry :
    Yields evutilTimeradd ⟨1, 600000⟩ ⟨2, 700000⟩ ⟨4, 300000⟩ := by
  have ha : Normalised ⟨1, 600000⟩ := by decide
  have hb : Normalised ⟨2, 700000⟩ := by decide
  have hab : SumFits ⟨1, 600000⟩ ⟨2, 700000⟩ := by decide
  obtain ⟨⟨v, -, hy, ⟨-, hv0, hv1⟩, hus, -⟩, -⟩ :=
    timeradd_timercmp ha hb ha hb hab hab (Store.mk ⟨none, 0, 0⟩ fun _ : ℕ => ⟨-1, ⟨0, 0⟩⟩)
  obtain ⟨sec, usec⟩ := v
  simp only [Timeval.us] at hv0 hv1 hus
  obtain rfl : sec = 4 := by omega
  obtain rfl : usec = 300000 := by omega
  exact hy

/-! ## Differences -/

/-- What `evutil_timersub` should yield. -/
def SubRight (a b : Timeval) : Prop :=
  ∃ c, Yields evutilTimersub a b c ∧ Normalised c ∧ c.us = a.us - b.us

/-- Subtracting gives back what was added to. -/
def SubInvertsAdd (a b : Timeval) : Prop :=
  ∃ c, Yields evutilTimeradd a b c ∧ Yields evutilTimersub c b a

/-- Adding gives back what was subtracted from. -/
def AddInvertsSub (a b : Timeval) : Prop :=
  ∃ c, Yields evutilTimersub a b c ∧ Yields evutilTimeradd c b a

/-- The microseconds of normalised values have a difference. -/
lemma isInt64_sub_tvUsec (ha : Normalised a) (hb : Normalised b) :
    IsInt64 (a.tvUsec - b.tvUsec) := by
  obtain ⟨-, ha0, ha1⟩ := ha
  obtain ⟨-, hb0, hb1⟩ := hb
  exact ⟨by omega, by omega⟩

lemma subRight_iff (ha : Normalised a) (hb : Normalised b) (hd : DiffFits a b) :
    SubRight a b ↔ b.tvUsec ≤ a.tvUsec := by
  have husec := isInt64_sub_tvUsec ha hb
  constructor
  · rintro ⟨c, hc, hn, -⟩
    have hnonneg := hn.nonneg
    have ha1 := ha.lt
    rcases (timersub_eq_some.1 (yields_timersub_iff.1 hc)).2.2 with
      ⟨hneg, -, -, hu⟩ | ⟨hneg, -⟩ <;> omega
  · intro hle
    have ha1 := ha.lt
    have hb0 := hb.nonneg
    refine ⟨_, yields_timersub_iff.2 (timersub_of_le hd.1 husec hle),
      ⟨hd.1, by simp only; omega, by simp only; omega⟩, ?_⟩
    simp only [Timeval.us]
    omega

lemma subInvertsAdd_iff (ha : Normalised a) (hb : Normalised b) (hs : SumFits a b) :
    SubInvertsAdd a b ↔ a.tvUsec + b.tvUsec < 10 ^ 6 := by
  obtain ⟨hasec, ha0, ha1⟩ := ha
  obtain ⟨-, hb0, hb1⟩ := hb
  constructor
  · rintro ⟨c, hc, hback⟩
    rcases (timeradd_eq_some.1 (yields_timeradd_iff.1 hc)).2.2 with
      ⟨hge, -, -, hu⟩ | ⟨hlt, -⟩
    · -- what was carried has to be borrowed again
      rcases (timersub_eq_some.1 (yields_timersub_iff.1 hback)).2.2 with
        ⟨hneg, -, -, hu'⟩ | ⟨hneg, -⟩ <;> omega
    · omega
  · intro hlt
    have husec : IsInt64 (a.tvUsec + b.tvUsec) := ⟨by omega, by omega⟩
    refine ⟨_, yields_timeradd_iff.2 (timeradd_of_lt hs.1 husec hlt),
      yields_timersub_iff.2 ?_⟩
    have hsec' := Int.add_sub_cancel a.tvSec b.tvSec
    have husec' := Int.add_sub_cancel a.tvUsec b.tvUsec
    rw [timersub_of_le (hsec'.symm ▸ hasec) (husec'.symm ▸ ⟨by omega, by omega⟩)
      (by simp only; omega), hsec', husec']

lemma addInvertsSub_iff (ha : Normalised a) (hb : Normalised b) (hd : DiffFits a b) :
    AddInvertsSub a b ↔ b.tvUsec ≤ a.tvUsec := by
  have husec := isInt64_sub_tvUsec ha hb
  obtain ⟨hasec, ha0, ha1⟩ := ha
  obtain ⟨-, hb0, hb1⟩ := hb
  constructor
  · rintro ⟨c, hc, hback⟩
    rcases (timersub_eq_some.1 (yields_timersub_iff.1 hc)).2.2 with
      ⟨hneg, -, -, hu⟩ | ⟨hneg, -⟩
    · -- the sum is too small for a carry
      rcases (timeradd_eq_some.1 (yields_timeradd_iff.1 hback)).2.2 with
        ⟨hge, -⟩ | ⟨-, rfl⟩
      · omega
      · simp only at hu
        omega
    · omega
  · intro hle
    refine ⟨_, yields_timersub_iff.2 (timersub_of_le hd.1 husec hle),
      yields_timeradd_iff.2 ?_⟩
    have hsec' := Int.sub_add_cancel a.tvSec b.tvSec
    have husec' := Int.sub_add_cancel a.tvUsec b.tvUsec
    rw [timeradd_of_lt (hsec'.symm ▸ hasec) (husec'.symm ▸ ⟨by omega, by omega⟩)
      (by simp only; omega), hsec', husec']

/-- **Differences are right, and inverse to sums, only where no second is borrowed.** -/
theorem timersub_iff (ha : Normalised a) (hb : Normalised b) (hd : DiffFits a b) :
    (SubRight a b ↔ b.tvUsec ≤ a.tvUsec) ∧
      (SumFits a b → (SubInvertsAdd a b ↔ a.tvUsec + b.tvUsec < 10 ^ 6)) ∧
      (AddInvertsSub a b ↔ b.tvUsec ≤ a.tvUsec) :=
  ⟨subRight_iff ha hb hd, subInvertsAdd_iff ha hb, addInvertsSub_iff ha hb hd⟩

/-- Half a second less than two seconds. -/
theorem timersub_borrows :
    Normalised ⟨2, 0⟩ ∧ Normalised ⟨0, 500000⟩ ∧ DiffFits ⟨2, 0⟩ ⟨0, 500000⟩ ∧
      Yields evutilTimersub ⟨2, 0⟩ ⟨0, 500000⟩ ⟨1, -1500000⟩ ∧ ¬ SubRight ⟨2, 0⟩ ⟨0, 500000⟩ := by
  have hy : Yields evutilTimersub ⟨2, 0⟩ ⟨0, 500000⟩ ⟨1, -1500000⟩ :=
    yields_timersub_iff.2 (by decide)
  refine ⟨by decide, by decide, by decide, hy, ?_⟩
  rintro ⟨c, hc, hn, -⟩
  obtain rfl := Option.some.inj
    ((yields_timersub_iff.1 hy).symm.trans (yields_timersub_iff.1 hc))
  exact absurd hn.nonneg (by decide)

theorem timersub_iff_half :
    SubRight ⟨2, 500000⟩ ⟨0, 500000⟩ ∧ ¬ SubInvertsAdd ⟨2, 500000⟩ ⟨0, 500000⟩ := by
  have ha : Normalised ⟨2, 500000⟩ := by decide
  have hb : Normalised ⟨0, 500000⟩ := by decide
  obtain ⟨hsub, hadd, -⟩ := timersub_iff ha hb (by decide)
  rw [hsub, hadd (by decide)]
  decide

end LibeventLearn.Event2
