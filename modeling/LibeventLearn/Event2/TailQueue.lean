import LibeventLearn.Event2.ListOk
import LibeventLearn.Lib.Run

/-!
# Tail queues

The tail queues of `keyvalq_struct.h`, the check `EVUTIL_ASSERT_TAILQ_OK` of `util-internal.h` and
the macro `TAILQ_INSERT_BEFORE` of `event-internal.h`.  The check compares `TAILQ_EMPTY` with
`NULL`, so that it looks at nothing of a queue that is not empty.  The insertion takes the back
pointer of the new node from `tqe_next` instead of `tqe_prev`.
-/

namespace LibeventLearn.Event2

open Lib

/-- A `TAILQ_HEAD` and the `TAILQ_ENTRY` of every node. -/
structure TailQueue (N : Type) where
  tqhFirst : Option N
  tqhLast : Loc N
  tqeNext : N → Option N
  tqePrev : N → Loc N

variable {N : Type}

/-- `TAILQ_EMPTY`, which is 1 or 0. -/
def tailqEmpty (tailq : TailQueue N) : ℤ := if tailq.tqhFirst.isNone then 1 else 0

/-- The queue holds the nodes `ns`: the chain from `tqh_first` leads through them to `NULL`, the
back pointers and `tqh_last` are the places of its pointers. -/
structure TailQueue.Represents (tailq : TailQueue N) (ns : List N) : Prop where
  leads : Leads tailq.tqeNext tailq.tqhFirst ns
  back : BackLinked Loc.next tailq.tqePrev .first ns
  last : tailq.tqhLast = lastPlace Loc.next .first ns

/-- The queue is well formed. -/
def TailQueue.WellFormed (tailq : TailQueue N) : Prop := ∃ ns, tailq.Represents ns

variable [DecidableEq N]

/-- What `EVUTIL_ASSERT_TAILQ_OK` does after its early exit. -/
def tailqLoops (fuel : ℕ) (tailq : TailQueue N) : Except Halt Unit := do
  let elm1 := tailq.tqhFirst
  let elm2 ← nextOf tailq.tqeNext elm1
  cycleLoop tailq.tqeNext fuel elm1 elm2
  let nextp ← linkLoop tailq.tqhFirst tailq.tqeNext tailq.tqePrev fuel .first tailq.tqhFirst
  evutilAssert (nextp == tailq.tqhLast)

/-- `EVUTIL_ASSERT_TAILQ_OK`, with at most `fuel` rounds of each loop. -/
def evutilAssertTailqOk (fuel : ℕ) (tailq : TailQueue N) : Except Halt Unit :=
  -- `== NULL`, where 0 is NULL
  if tailqEmpty tailq = 0 then pure () else tailqLoops fuel tailq

/-- The check comes to an end without a bad access, and no assertion fails exactly if the queue is
well formed. -/
def Recognised (tailq : TailQueue N) : Prop :=
  ∃ fuel₀, ∀ fuel ≥ fuel₀,
    (tailq.WellFormed → evutilAssertTailqOk fuel tailq = pure ()) ∧
    (¬ tailq.WellFormed → evutilAssertTailqOk fuel tailq = throw .assertFailed)

variable {tailq : TailQueue N}

lemma evutilAssertTailqOk_of_ne_none (h : tailq.tqhFirst ≠ none) (fuel : ℕ) :
    evutilAssertTailqOk fuel tailq = pure () := by
  obtain ⟨elm, helm⟩ := Option.ne_none_iff_exists'.1 h
  have hempty : tailqEmpty tailq = 0 := by rw [tailqEmpty, helm]; rfl
  rw [evutilAssertTailqOk, if_pos hempty]

lemma evutilAssertTailqOk_of_eq_none (h : tailq.tqhFirst = none) (fuel : ℕ) :
    evutilAssertTailqOk fuel tailq = throw .badAccess := by
  have hempty : tailqEmpty tailq = 1 := by rw [tailqEmpty, h]; rfl
  rw [evutilAssertTailqOk, hempty, if_neg one_ne_zero, tailqLoops, h]
  rfl

/-- **`EVUTIL_ASSERT_TAILQ_OK` is right only about the well-formed queues that are not empty**:
it dereferences `NULL` on the empty queue, and accepts every other one. -/
theorem recognised_iff : Recognised tailq ↔ tailq.tqhFirst ≠ none ∧ tailq.WellFormed := by
  constructor
  · rintro ⟨fuel₀, h⟩
    obtain ⟨hwf, hnot⟩ := h fuel₀ le_rfl
    have hne : tailq.tqhFirst ≠ none := by
      intro hnone
      rw [evutilAssertTailqOk_of_eq_none hnone] at hwf hnot
      by_cases hw : tailq.WellFormed
      · cases hwf hw
      · cases hnot hw
    refine ⟨hne, by_contra fun hw => ?_⟩
    rw [evutilAssertTailqOk_of_ne_none hne] at hnot
    cases hnot hw
  · rintro ⟨hne, hw⟩
    exact ⟨0, fun fuel _ => ⟨fun _ => evutilAssertTailqOk_of_ne_none hne fuel, absurd hw⟩⟩

/-- The empty queue, and a queue of one node that leads to itself. -/
theorem recognised_not :
    ¬ Recognised (TailQueue.mk none Loc.first (fun _ : Unit => none) fun _ => .first) ∧
      ¬ Recognised
        (TailQueue.mk (some ()) Loc.first (fun _ : Unit => some ()) fun _ => .first) := by
  constructor
  · rintro ⟨fuel₀, h⟩
    cases (h fuel₀ le_rfl).1 ⟨[], rfl, trivial, rfl⟩
  · rintro ⟨fuel₀, h⟩
    have hnot := (h fuel₀ le_rfl).2
    refine absurd (hnot ?_) (by rintro ⟨⟩)
    rintro ⟨ns, hns, -, -⟩
    -- the chain of the node that leads to itself has no end
    have hloop : ∀ ns : List Unit, ¬ Leads (fun _ : Unit => some ()) (some ()) ns := by
      intro ns
      induction ns with
      | nil =>
        intro h
        cases h
      | cons _ ns ih => exact fun h => ih h.2
    exact hloop ns hns

/-- **Without its early exit the check would be right about every queue that is not empty.** -/
theorem tailqLoops_spec [Finite N] (h : tailq.tqhFirst ≠ none) :
    ∃ fuel₀, ∀ fuel ≥ fuel₀,
      (tailq.WellFormed → tailqLoops fuel tailq = pure ()) ∧
      (¬ tailq.WellFormed → tailqLoops fuel tailq = throw .assertFailed) := by
  obtain ⟨elm, helm⟩ := Option.ne_none_iff_exists'.1 h
  obtain ⟨fuel₀, hloops⟩ := loops_spec tailq.tqeNext tailq.tqePrev elm
  refine ⟨fuel₀, fun fuel hfuel => ?_⟩
  obtain ⟨hok, hfail⟩ := hloops fuel hfuel
  have heq : tailqLoops fuel tailq = (do
      cycleLoop tailq.tqeNext fuel (some elm) (tailq.tqeNext elm)
      linkLoop (some elm) tailq.tqeNext tailq.tqePrev fuel .first (some elm)) >>=
        fun nextp => evutilAssert (nextp == tailq.tqhLast) := by
    rw [tailqLoops, helm, bind_assoc]
    rfl
  rw [heq]
  constructor
  · rintro ⟨ns, hns, hb, hlast⟩
    rw [hok ns (helm ▸ hns) hb, pure_bind, hlast, beq_self_eq_true, evutilAssert_true]
  · intro hwf
    by_cases hback : ∃ ns, Leads tailq.tqeNext (some elm) ns ∧
        BackLinked Loc.next tailq.tqePrev .first ns
    · -- only `tqh_last` is wrong
      obtain ⟨ns, hns, hb⟩ := hback
      have hlast : lastPlace Loc.next .first ns ≠ tailq.tqhLast := fun hl =>
        hwf ⟨ns, helm.symm ▸ hns, hb, hl.symm⟩
      rw [hok ns hns hb, pure_bind, beq_eq_false_iff_ne.2 hlast, evutilAssert_false]
    · rw [hfail fun ns hns hb => hback ⟨ns, hns, hb⟩]
      rfl

/-! ## Inserting -/

/-- The addresses of the nodes, and whether the entry is the first member of a node.  The head of
a queue is not part of a node. -/
structure Layout (N : Type) where
  entryFirst : Bool
  addr : Option N → ℕ

omit [DecidableEq N] in
/-- A pointer to a node read as a pointer to a pointer. -/
def Layout.asLoc (layout : Layout N) : Option N → Loc N
  | some elm => if layout.entryFirst then .next elm else .other (layout.addr (some elm))
  | none => .other (layout.addr none)

/-- `(elm)->field.tqe_next = next`. -/
def TailQueue.setNext (tailq : TailQueue N) (elm : N) (next : Option N) : TailQueue N :=
  { tailq with tqeNext := Function.update tailq.tqeNext elm next }

/-- `(elm)->field.tqe_prev = prev`. -/
def TailQueue.setPrev (tailq : TailQueue N) (elm : N) (prev : Loc N) : TailQueue N :=
  { tailq with tqePrev := Function.update tailq.tqePrev elm prev }

/-- `*loc = p`. -/
def TailQueue.write (tailq : TailQueue N) : Loc N → Option N → Except Halt (TailQueue N)
  | .first, p => pure { tailq with tqhFirst := p }
  | .next elm, p => pure (tailq.setNext elm p)
  | .other _, _ => throw .badAccess

/-- `TAILQ_INSERT_BEFORE`. -/
def tailqInsertBefore (layout : Layout N) (listelm elm : N) (tailq : TailQueue N) :
    Except Halt (TailQueue N) := do
  let tailq := tailq.setPrev elm (layout.asLoc (tailq.tqeNext listelm))
  let tailq := tailq.setNext elm (some listelm)
  let tailq ← tailq.write (tailq.tqePrev listelm) (some elm)
  pure (tailq.setPrev listelm (.next elm))

/-- The insertion as one step of a run: a member of the queue and the node to be put before it. -/
def insertStep (layout : Layout N) (l : N × N) (tailq : TailQueue N) :
    Option (TailQueue N × List Unit) :=
  (tailqInsertBefore layout l.1 l.2 tailq).toOption.map fun tailq' => (tailq', [])

omit [DecidableEq N] in
/-- The pointer at a place. -/
def TailQueue.value (tailq : TailQueue N) : Loc N → Option N
  | .first => tailq.tqhFirst
  | .next elm => tailq.tqeNext elm
  | .other _ => none

variable {layout : Layout N} {tailq tailq' : TailQueue N} {xs ys ns : List N}
  {listelm elm n : N} {loc : Loc N} {p : Option N}

@[simp] lemma setNext_tqePrev : (tailq.setNext elm p).tqePrev = tailq.tqePrev := rfl

@[simp] lemma setPrev_value : (tailq.setPrev elm loc).value = tailq.value := rfl

@[simp] lemma setPrev_tqePrev :
    (tailq.setPrev elm loc).tqePrev = Function.update tailq.tqePrev elm loc := rfl

@[simp] lemma setNext_value :
    (tailq.setNext elm p).value = Function.update tailq.value (.next elm) p := by
  funext l
  cases l with
  | first => rfl
  | next n =>
    simp only [TailQueue.value, TailQueue.setNext, Function.update_apply, Loc.next.injEq]
  | other a => rfl

/-- A store to a place that holds a pointer changes that pointer. -/
lemma exists_write (tailq : TailQueue N) (p : Option N) (hloc : loc = .first ∨ ∃ n, loc = .next n) :
    ∃ tailq', tailq.write loc p = pure tailq' ∧ tailq'.value = Function.update tailq.value loc p ∧
      tailq'.tqePrev = tailq.tqePrev ∧ tailq'.tqhLast = tailq.tqhLast := by
  rcases hloc with rfl | ⟨n, rfl⟩
  · refine ⟨_, rfl, ?_, rfl, rfl⟩
    funext l
    cases l <;> rfl
  · exact ⟨_, rfl, setNext_value, rfl, rfl⟩

omit [DecidableEq N] in
lemma lastPlace_first (xs : List N) :
    lastPlace Loc.next .first xs = .first ∨ ∃ n, lastPlace Loc.next .first xs = .next n := by
  rcases lastPlace_eq_or Loc.next .first xs with h | ⟨n, -, h⟩
  · exact Or.inl h
  · exact Or.inr ⟨n, h⟩

/-- What one insertion does: the pointers are those of the new sequence, and so are the back
pointers, but for that of the new node. -/
lemma tailqInsertBefore_spec (layout : Layout N) (h : tailq.Represents (xs ++ listelm :: ys))
    (he : elm ∉ xs ++ listelm :: ys) :
    ∃ tailq', tailqInsertBefore layout listelm elm tailq = pure tailq' ∧
      tailq'.value = Function.update (Function.update tailq.value (.next elm) (some listelm))
        (lastPlace Loc.next .first xs) (some elm) ∧
      tailq'.tqePrev = Function.update (Function.update tailq.tqePrev elm
        (layout.asLoc (tailq.tqeNext listelm))) listelm (.next elm) ∧
      tailq'.tqhLast = tailq.tqhLast := by
  have hne : listelm ≠ elm := fun heq => he (heq ▸ by simp)
  have hprev : tailq.tqePrev listelm = lastPlace Loc.next .first xs :=
    (backLinked_append_cons.1 h.back).2.1
  obtain ⟨tailq', hwrite, hvalue, hprev', hlast⟩ := exists_write
    ((tailq.setPrev elm (layout.asLoc (tailq.tqeNext listelm))).setNext elm (some listelm))
    (some elm) (lastPlace_first xs)
  refine ⟨tailq'.setPrev listelm (.next elm), ?_, ?_, ?_, hlast⟩
  · rw [tailqInsertBefore, setNext_tqePrev, setPrev_tqePrev, Function.update_of_ne hne, hprev,
      hwrite]
    rfl
  · rw [setPrev_value, hvalue, setNext_value, setPrev_value]
  · rw [setPrev_tqePrev, hprev', setNext_tqePrev, setPrev_tqePrev]

/-- The insertion yields a well-formed queue with `elm` right before `listelm`, and leaves all
other pointers, back pointers and `tqh_last` as they are. -/
def InsertRight (layout : Layout N) (xs ys : List N) (listelm elm : N) (tailq : TailQueue N) :
    Prop :=
  ∃ tailq', tailqInsertBefore layout listelm elm tailq = pure tailq' ∧
    tailq'.Represents (xs ++ elm :: listelm :: ys) ∧
    (∀ l, l ≠ .next elm → l ≠ tailq.tqePrev listelm → tailq'.value l = tailq.value l) ∧
    (∀ n, n ≠ elm → n ≠ listelm → tailq'.tqePrev n = tailq.tqePrev n) ∧
    tailq'.tqhLast = tailq.tqhLast

/-- The chain of the queue after an insertion is right. -/
lemma tailqInsertBefore_leads (h : tailq.Represents (xs ++ listelm :: ys))
    (he : elm ∉ xs ++ listelm :: ys)
    (hrun : tailqInsertBefore layout listelm elm tailq = pure tailq') :
    Leads tailq'.tqeNext tailq'.tqhFirst (xs ++ elm :: listelm :: ys) := by
  obtain ⟨tailq'', heq, hvalue, -, -⟩ := tailqInsertBefore_spec layout h he
  obtain rfl : tailq'' = tailq' := Except.ok.inj (heq.symm.trans hrun)
  have hplace : Loc.next elm ≠ lastPlace Loc.next .first xs := by
    intro heq
    rcases lastPlace_eq_or Loc.next .first xs with hfirst | ⟨n, hn, hnext⟩
    · cases heq.trans hfirst
    · exact he (List.mem_append_left _ (Loc.next.inj (heq.trans hnext) ▸ hn))
  have hfirst : ∀ n : N, Loc.next n ≠ Loc.first := by
    intro n heq
    cases heq
  have hleads : Leads (fun n => tailq.value (.next n)) (tailq.value .first)
      (xs ++ listelm :: ys) := h.leads
  refine Leads.insert tailq.value tailq''.value (fun _ _ => Loc.next.inj) (hfirst elm)
    (fun n _ => hfirst n) hleads he ?_ ?_ fun l hl hle => ?_
  · rw [hvalue, Function.update_self]
  · rw [hvalue, Function.update_of_ne hplace, Function.update_self]
  · rw [hvalue, Function.update_of_ne hl, Function.update_of_ne hle]

omit [DecidableEq N] in
/-- The back pointer that the new node gets is not the place of the pointer to it. -/
lemma asLoc_ne_lastPlace (h : tailq.Represents (xs ++ listelm :: ys)) :
    layout.asLoc (tailq.tqeNext listelm) ≠ lastPlace Loc.next .first xs := by
  intro heq
  -- read as the place of a pointer, it is at best in the node after `listelm`
  obtain ⟨y, hy, hloc⟩ : ∃ y ∈ ys, lastPlace Loc.next .first xs = .next y := by
    have hys : Leads tailq.tqeNext (tailq.tqeNext listelm) ys := h.leads.of_append
    have hreal := lastPlace_first xs
    rw [← heq] at hreal ⊢
    cases ys with
    | nil =>
      rw [leads_nil.1 hys, Layout.asLoc] at hreal
      exact absurd hreal (by simp)
    | cons y ys =>
      rw [hys.1, Layout.asLoc] at hreal ⊢
      split at hreal
      · exact ⟨y, List.mem_cons_self, if_pos ‹_›⟩
      · exact absurd hreal (by simp)
  rcases lastPlace_eq_or Loc.next .first xs with hfirst | ⟨x, hx, hnext⟩
  · cases hfirst.symm.trans hloc
  · obtain rfl : x = y := Loc.next.inj (hnext.symm.trans hloc)
    exact (List.nodup_append.1 h.leads.nodup).2.2 x hx x (List.mem_cons_of_mem listelm hy) rfl

/-- The queue after an insertion does not hold the new sequence. -/
lemma not_represents (h : tailq.Represents (xs ++ listelm :: ys))
    (he : elm ∉ xs ++ listelm :: ys)
    (hrun : tailqInsertBefore layout listelm elm tailq = pure tailq') :
    ¬ tailq'.Represents (xs ++ elm :: listelm :: ys) := by
  intro hrep
  obtain ⟨tailq'', heq, -, hprev, -⟩ := tailqInsertBefore_spec layout h he
  obtain rfl : tailq'' = tailq' := Except.ok.inj (heq.symm.trans hrun)
  have hne : elm ≠ listelm := fun heq => he (heq ▸ by simp)
  have hback : tailq''.tqePrev elm = lastPlace Loc.next .first xs :=
    (backLinked_append_cons.1 hrep.back).2.1
  rw [hprev, Function.update_of_ne hne, Function.update_self] at hback
  exact asLoc_ne_lastPlace h hback

/-- **The back pointer of the new node is all that is wrong after an insertion.** -/
theorem tailqInsertBefore_repaired (h : tailq.Represents (xs ++ listelm :: ys))
    (he : elm ∉ xs ++ listelm :: ys)
    (hrun : tailqInsertBefore layout listelm elm tailq = pure tailq') :
    (tailq'.setPrev elm (lastPlace Loc.next .first xs)).Represents
      (xs ++ elm :: listelm :: ys) := by
  have hleads := tailqInsertBefore_leads h he hrun
  obtain ⟨tailq'', heq, -, hprev, hlast⟩ := tailqInsertBefore_spec layout h he
  obtain rfl : tailq'' = tailq' := Except.ok.inj (heq.symm.trans hrun)
  have hne : listelm ≠ elm := fun heq => he (heq ▸ by simp)
  refine ⟨hleads, h.back.insert h.leads.nodup he ?_ ?_ fun n hn hn' => ?_, ?_⟩
  · rw [setPrev_tqePrev, Function.update_self]
  · rw [setPrev_tqePrev, Function.update_of_ne hne, hprev, Function.update_self]
  · rw [setPrev_tqePrev, Function.update_of_ne hn, hprev, Function.update_of_ne hn',
      Function.update_of_ne hn]
  · refine hlast.trans (h.last.trans ?_)
    rw [lastPlace_append_cons, lastPlace_append_cons, lastPlace_cons]

/-- **`TAILQ_INSERT_BEFORE` never keeps a queue well formed**: it gives the new node a wrong back
pointer. -/
theorem not_insertRight (layout : Layout N) (h : tailq.Represents (xs ++ listelm :: ys))
    (he : elm ∉ xs ++ listelm :: ys) :
    ¬ InsertRight layout xs ys listelm elm tailq ∧
      ∀ ls, ¬ Throughout (insertStep layout) (fun _ _ r => r.1.WellFormed)
        ((listelm, elm) :: ls) tailq := by
  constructor
  · rintro ⟨tailq', hrun, hrep, -⟩
    exact not_represents h he hrun hrep
  · rintro ls ⟨r, hstep, ⟨ns, hrep⟩, -⟩
    obtain ⟨tailq', hrun, -⟩ := tailqInsertBefore_spec layout h he
    rw [insertStep, hrun] at hstep
    obtain rfl : (tailq', []) = r := Option.some.inj hstep
    -- the sequence it would hold is that of its chain
    rw [hrep.leads.unique (tailqInsertBefore_leads h he hrun)] at hrep
    exact not_represents h he hrun hrep

theorem not_insertRight_one :
    ¬ InsertRight ⟨true, fun _ => 0⟩ [] [] 0 1
      ⟨some (0 : Fin 2), .next 0, fun _ => none, fun _ => .first⟩ := by
  have hone : TailQueue.Represents ⟨some (0 : Fin 2), .next 0, fun _ => none, fun _ => .first⟩
      ([] ++ 0 :: []) := ⟨⟨rfl, leads_nil.2 rfl⟩, ⟨rfl, trivial⟩, rfl⟩
  exact (not_insertRight ⟨true, fun _ => 0⟩ hone (by decide)).1

/-- A node before the second of two. -/
theorem insertBefore_second :
    ¬ InsertRight ⟨true, fun _ => 0⟩ [0] [] 1 2
      ⟨some (0 : Fin 3), .next 1, ![some 1, none, none], ![.first, .next 0, .first]⟩ := by
  rintro ⟨tailq', hrun, hrep, -⟩
  have htwo : TailQueue.Represents
      ⟨some (0 : Fin 3), .next 1, ![some 1, none, none], ![.first, .next 0, .first]⟩
      ([0] ++ 1 :: []) := ⟨⟨rfl, rfl, leads_nil.2 rfl⟩, ⟨rfl, rfl, trivial⟩, rfl⟩
  exact not_represents htwo (by decide) hrun hrep

end LibeventLearn.Event2
