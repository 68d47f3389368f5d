import LibeventLearn.Lib.Chain
import Mathlib.Data.Fin.VecNotation
import Mathlib.Tactic.Common

/-!
# Checking lists

`EVUTIL_ASSERT_LIST_OK` of `util-internal.h`, on a memory of nodes with arbitrary pointers.  Its
first loop sends two walkers along the list, which meet if the list does not end; its second loop
compares every `le_prev` with the place of the pointer that leads to the node.
-/

namespace LibeventLearn.Event2

open Lib

/-- Why a check stops before its end: an assertion fails, and `event_errx` does not return; `NULL`
or a place that holds no pointer is dereferenced; the loops take more rounds than they are given. -/
inductive Halt where
  | assertFailed
  | badAccess
  | outOfFuel
deriving DecidableEq

/-- Where a pointer to a node may be kept: in the head, in a node, or elsewhere. -/
inductive Loc (N : Type) where
  | first
  | next (n : N)
  | other (a : ℕ)
deriving DecidableEq

/-- A `LIST_HEAD` and the `LIST_ENTRY` of every node. -/
structure LinkedList (N : Type) where
  lhFirst : Option N
  leNext : N → Option N
  lePrev : N → Loc N

/-- `EVUTIL_ASSERT`. -/
def evutilAssert (cond : Bool) : Except Halt Unit :=
  if cond then pure () else throw .assertFailed

/-- `LIST_NEXT` and `TAILQ_NEXT`. -/
def nextOf {N : Type} (next : N → Option N) : Option N → Except Halt (Option N)
  | some elm => pure (next elm)
  | none => throw .badAccess

/-- The value `*nextp`. -/
def deref {N : Type} (first : Option N) (next : N → Option N) : Loc N → Except Halt (Option N)
  | .first => pure first
  | .next elm => pure (next elm)
  | .other _ => throw .badAccess

variable {N : Type} [DecidableEq N]

/-- The first loop of `EVUTIL_ASSERT_LIST_OK` and `EVUTIL_ASSERT_TAILQ_OK`. -/
def cycleLoop (next : N → Option N) : ℕ → Option N → Option N → Except Halt Unit
  | 0, _, _ => throw .outOfFuel
  | fuel + 1, elm1, elm2 =>
    if elm1.isSome && elm2.isSome then do
      evutilAssert (elm1 != elm2)
      let elm1 ← nextOf next elm1
      let elm2 ← nextOf next elm2
      if elm2.isNone then pure ()
      else do
        evutilAssert (elm1 != elm2)
        let elm2 ← nextOf next elm2
        cycleLoop next fuel elm1 elm2
    else pure ()

/-- The second loop of `EVUTIL_ASSERT_LIST_OK` and `EVUTIL_ASSERT_TAILQ_OK`; the result is
`nextp`. -/
def linkLoop (first : Option N) (next : N → Option N) (prev : N → Loc N) :
    ℕ → Loc N → Option N → Except Halt (Loc N)
  | 0, _, _ => throw .outOfFuel
  | _ + 1, nextp, none => pure nextp
  | fuel + 1, nextp, some elm1 => do
    evutilAssert ((← deref first next nextp) == some elm1)
    evutilAssert (nextp == prev elm1)
    let nextp := .next elm1
    linkLoop first next prev fuel nextp (← deref first next nextp)

/-- `EVUTIL_ASSERT_LIST_OK`, with at most `fuel` rounds of each loop. -/
def evutilAssertListOk (fuel : ℕ) (dlist : LinkedList N) : Except Halt Unit := do
  -- LIST_EMPTY
  if dlist.lhFirst.isNone then pure ()
  else
    let elm1 := dlist.lhFirst
    let elm2 ← nextOf dlist.leNext elm1
    cycleLoop dlist.leNext fuel elm1 elm2
    let _ ← linkLoop dlist.lhFirst dlist.leNext dlist.lePrev fuel .first dlist.lhFirst
    pure ()

omit [DecidableEq N] in
/-- The chain from the head ends, and every node on it has the place of the pointer that leads to
it. -/
def LinkedList.WellFormed (dlist : LinkedList N) : Prop :=
  ∃ ns, Leads dlist.leNext dlist.lhFirst ns ∧ BackLinked Loc.next dlist.lePrev .first ns

variable {first p : Option N} {next : N → Option N} {prev : N → Loc N} {nextp : Loc N}
  {ns : List N} {n e : N} {fuel : ℕ}

@[simp] lemma evutilAssert_true : evutilAssert true = pure () := rfl

@[simp] lemma evutilAssert_false : evutilAssert false = throw .assertFailed := rfl

omit [DecidableEq N] in
@[simp] lemma nextOf_some : nextOf next (some e) = pure (next e) := rfl

omit [DecidableEq N] in
@[simp] lemma deref_next : deref first next (.next e) = pure (next e) := rfl

/-! ## The walkers -/

lemma cycleLoop_none_right (elm1 : Option N) : cycleLoop next (fuel + 1) elm1 none = pure () := by
  rw [cycleLoop, Option.isSome_none, Bool.and_false]
  rfl

/-- One round: the first walker is `r` steps from the start, the second `2 * r + 1`. -/
lemma cycleLoop_succ (r : ℕ) (h : along next (2 * r + 1) p ≠ none) :
    cycleLoop next (fuel + 1) (along next r p) (along next (2 * r + 1) p) = (do
      evutilAssert (along next r p != along next (2 * r + 1) p)
      if (along next (2 * (r + 1)) p).isNone then pure ()
      else
        evutilAssert (along next (r + 1) p != along next (2 * (r + 1)) p)
        cycleLoop next fuel (along next (r + 1) p) (along next (2 * (r + 1) + 1) p)) := by
  obtain ⟨elm2, h2⟩ := Option.ne_none_iff_exists'.1 h
  -- the slower walker is behind on the same chain
  obtain ⟨elm1, h1⟩ : ∃ elm1, along next r p = some elm1 := by
    rw [← Option.ne_none_iff_exists']
    intro hn
    have hsplit : 2 * r + 1 = r + (r + 1) := by omega
    rw [hsplit, along_add, hn, along_none] at h
    exact h rfl
  have h1' : along next (r + 1) p = next elm1 := by rw [along_succ, h1, Option.bind_some]
  have h2' : along next (2 * (r + 1)) p = next elm2 := by
    rw [Nat.mul_succ, along_succ, h2, Option.bind_some]
  rw [along_succ (2 * (r + 1)), h1', h2', h1, h2, cycleLoop]
  simp only [Option.isSome_some, Bool.and_self, if_true, nextOf_some, pure_bind]
  congr 1
  funext _
  cases next elm2 with
  | none => rfl
  | some e => simp only [nextOf_some, pure_bind, Option.bind_some]

/-- The walkers of a list that ends never meet. -/
lemma cycleLoop_of_leads (h : Leads next p ns) (fuel : ℕ) {r : ℕ}
    (hfuel : ns.length ≤ 2 * (r + fuel) + 1) :
    cycleLoop next (fuel + 1) (along next r p) (along next (2 * r + 1) p) = pure () := by
  have hend : ∀ {k}, ns.length ≤ k → along next k p = none := fun hk => by
    rw [h.along_eq, List.getElem?_eq_none hk]
  have hapart : ∀ {i j}, i < j → along next j p ≠ none →
      (along next i p != along next j p) = true := by
    intro i j hij hj
    obtain ⟨e, he⟩ := Option.ne_none_iff_exists'.1 hj
    rw [he, bne_iff_ne]
    exact h.along_ne hij he
  induction fuel generalizing r with
  | zero => rw [hend (by omega : ns.length ≤ 2 * r + 1), cycleLoop_none_right]
  | succ fuel ih =>
    by_cases h1 : along next (2 * r + 1) p = none
    · rw [h1, cycleLoop_none_right]
    · rw [cycleLoop_succ r h1, hapart (by omega) h1, evutilAssert_true, pure_bind]
      by_cases h2 : along next (2 * (r + 1)) p = none
      · rw [h2, Option.isNone_none, if_pos rfl]
      · rw [if_neg (by simpa using h2), hapart (by omega) h2, evutilAssert_true, pure_bind]
        exact ih (by omega)

/-- The walkers of a list that does not end meet. -/
lemma cycleLoop_of_meet (h : ¬ Ends next p) {m r : ℕ} (hrm : r < m)
    (hm : along next (2 * m) p = along next m p) (hfuel : m ≤ r + fuel) :
    cycleLoop next fuel (along next r p) (along next (2 * r + 1) p) = throw .assertFailed := by
  have hnone : ∀ k, along next k p ≠ none := fun k hk => h ⟨k, hk⟩
  induction fuel generalizing r with
  | zero => omega
  | succ fuel ih =>
    rw [cycleLoop_succ r (hnone _)]
    cases along next r p != along next (2 * r + 1) p with
    | false => rfl
    | true =>
      rw [evutilAssert_true, pure_bind, if_neg (by simpa using hnone _)]
      rcases Nat.lt_or_eq_of_le (Nat.succ_le_of_lt hrm) with hlt | rfl
      · cases along next (r + 1) p != along next (2 * (r + 1)) p with
        | false => rfl
        | true =>
          rw [evutilAssert_true, pure_bind]
          exact ih hlt (by omega)
      · rw [hm, bne_self_eq_false]
        rfl

/-- **The first loop fails exactly on the lists that do not end.** -/
theorem cycleLoop_spec [Finite N] (next : N → Option N) (e : N) :
    ∃ fuel₀, ∀ fuel ≥ fuel₀,
      (Ends next (some e) → cycleLoop next fuel (some e) (next e) = pure ()) ∧
      (¬ Ends next (some e) → cycleLoop next fuel (some e) (next e) = throw .assertFailed) := by
  by_cases h : Ends next (some e)
  · obtain ⟨ns, hns⟩ := h.exists_leads
    refine ⟨ns.length + 1, fun fuel hfuel => ⟨fun _ => ?_, fun hn => absurd h hn⟩⟩
    obtain ⟨fuel, rfl⟩ := Nat.exists_eq_add_of_le' hfuel
    exact cycleLoop_of_leads hns (fuel + ns.length) (r := 0) (by omega)
  · obtain ⟨m, hm0, hm⟩ := exists_meet next (some e)
    refine ⟨m, fun fuel hfuel => ⟨fun hn => absurd hn h, fun _ => ?_⟩⟩
    exact cycleLoop_of_meet h hm0 hm (by omega)

/-! ## The back pointers -/

/-- One round, where `nextp` is the place of the pointer to `elm1`. -/
lemma linkLoop_some (hp : deref first next nextp = pure (some e)) :
    linkLoop first next prev (fuel + 1) nextp (some e) = (do
      evutilAssert (nextp == prev e)
      linkLoop first next prev fuel (.next e) (next e)) := by
  rw [linkLoop, hp, pure_bind, beq_self_eq_true, evutilAssert_true, pure_bind]
  rfl

/-- **The second loop fails exactly at a wrong back pointer**; else it returns the place of the
last pointer. -/
theorem linkLoop_spec (h : Leads next p ns) (hp : deref first next nextp = pure p)
    (hfuel : ns.length < fuel) :
    linkLoop first next prev fuel nextp p =
      if BackLinked Loc.next prev nextp ns then pure (lastPlace Loc.next nextp ns)
      else throw .assertFailed := by
  induction ns generalizing p nextp fuel with
  | nil =>
    obtain ⟨fuel, rfl⟩ := Nat.exists_eq_add_of_lt hfuel
    rw [leads_nil.1 h, if_pos (backLinked_nil), lastPlace_nil, linkLoop]
  | cons e ns ih =>
    obtain ⟨rfl, hns⟩ := h
    cases fuel with
    | zero => omega
    | succ fuel =>
      rw [linkLoop_some hp, lastPlace_cons]
      by_cases hprev : prev e = nextp
      · rw [hprev, beq_self_eq_true, evutilAssert_true, pure_bind,
          ih hns deref_next (by simpa using hfuel)]
        simp only [backLinked_cons, hprev, true_and]
      · rw [if_neg fun hb => hprev hb.1, beq_eq_false_iff_ne.2 (Ne.symm hprev)]
        rfl

/-- The two loops one after the other, from a head that leads to `e`. -/
lemma loops_spec [Finite N] (next : N → Option N) (prev : N → Loc N) (e : N) :
    ∃ fuel₀, ∀ fuel ≥ fuel₀,
      (∀ ns, Leads next (some e) ns → BackLinked Loc.next prev .first ns →
        (do cycleLoop next fuel (some e) (next e)
            linkLoop (some e) next prev fuel .first (some e)) =
          pure (lastPlace Loc.next .first ns)) ∧
      ((∀ ns, Leads next (some e) ns → ¬ BackLinked Loc.next prev .first ns) →
        (do cycleLoop next fuel (some e) (next e)
            linkLoop (some e) next prev fuel .first (some e)) = throw .assertFailed) := by
  obtain ⟨fuel₀, hcycle⟩ := cycleLoop_spec next e
  by_cases hends : Ends next (some e)
  · obtain ⟨ns, hns⟩ := hends.exists_leads
    refine ⟨max fuel₀ (ns.length + 1), fun fuel hfuel => ?_⟩
    rw [(hcycle fuel (by omega)).1 hends, pure_bind, linkLoop_spec hns rfl (by omega)]
    constructor
    · intro ms hms hb
      obtain rfl := hns.unique hms
      rw [if_pos hb]
    · intro h
      rw [if_neg (h ns hns)]
  · refine ⟨fuel₀, fun fuel hfuel => ?_⟩
    rw [(hcycle fuel hfuel).2 hends]
    exact ⟨fun ns hns _ => absurd hns.ends hends, fun _ => rfl⟩

lemma evutilAssertListOk_of_some {dlist : LinkedList N} (hp : dlist.lhFirst = some e) :
    evutilAssertListOk fuel dlist = (do
      cycleLoop dlist.leNext fuel (some e) (dlist.leNext e)
      linkLoop (some e) dlist.leNext dlist.lePrev fuel .first (some e)) >>= fun _ => pure () := by
  rw [evutilAssertListOk, hp, bind_assoc]
  rfl

/-- **`EVUTIL_ASSERT_LIST_OK` recognises the well-formed lists**: on every finite memory it comes
to an end, without a bad access, and no assertion fails exactly on these. -/
theorem evutilAssertListOk_spec [Finite N] (dlist : LinkedList N) :
    ∃ fuel₀, ∀ fuel ≥ fuel₀,
      (dlist.WellFormed → evutilAssertListOk fuel dlist = pure ()) ∧
      (¬ dlist.WellFormed → evutilAssertListOk fuel dlist = throw .assertFailed) := by
  cases hp : dlist.lhFirst with
  | none =>
    have hwf : dlist.WellFormed := ⟨[], hp, trivial⟩
    refine ⟨0, fun fuel _ => ⟨fun _ => ?_, fun hn => absurd hwf hn⟩⟩
    rw [evutilAssertListOk, hp, Option.isNone_none, if_pos rfl]
  | some elm =>
    obtain ⟨fuel₀, h⟩ := loops_spec dlist.leNext dlist.lePrev elm
    refine ⟨fuel₀, fun fuel hfuel => ?_⟩
    obtain ⟨hok, hfail⟩ := h fuel hfuel
    rw [evutilAssertListOk_of_some hp]
    constructor
    · rintro ⟨ns, hns, hb⟩
      rw [hok ns (hp ▸ hns) hb, pure_bind]
    · intro hwf
      rw [hfail fun ns hns hb => hwf ⟨ns, hp.symm ▸ hns, hb⟩]
      rfl

theorem evutilAssertListOk_spec_two :
    ∃ fuel₀, ∀ fuel ≥ fuel₀,
      evutilAssertListOk fuel ⟨some (0 : Fin 2), ![some 1, none], ![.first, .next 0]⟩ =
        pure () := by
  obtain ⟨fuel₀, h⟩ :=
    evutilAssertListOk_spec ⟨some (0 : Fin 2), ![some 1, none], ![.first, .next 0]⟩
  exact ⟨fuel₀, fun fuel hfuel =>
    (h fuel hfuel).1 ⟨[0, 1], ⟨rfl, rfl, rfl⟩, rfl, rfl, trivial⟩⟩

/-- A list whose third node leads back to the second. -/
example :
    evutilAssertListOk 9
      ⟨some (0 : Fin 3), ![some 1, some 2, some 1], ![.first, .next 0, .next 1]⟩ =
        throw .assertFailed := rfl

end LibeventLearn.Event2
