import LibeventLearn.Event2.MinHeap
import LibeventLearn.Lib.KeyedSet
import LibeventLearn.Lib.Run

/-!
# The timer heap against the set it stands for

What the heap is for is a finite set of events keyed by `ev_timeout`, from which an event with
a least key is taken.  This file tracks that set along the runs of the heap from
`min_heap_ctor_`, says when a run refines it, and finds the runs that do.

The first `min_heap_push_` already stores behind the end of the block, and `min_heap_top_` on
the new heap dereferences NULL; a run without either leaves the heap as it was constructed.
-/

namespace LibeventLearn.Event2

open Lib

/-- The operations of the heap.  A time given with one is what the caller has put into the
`ev_timeout` of the event beforehand. -/
inductive HeapOp (E : Type) where
  | push (e : E) (evTimeout : Timeval)
  | pop
  | erase (e : E)
  | adjust (e : E) (evTimeout : Timeval)
  | top

/-- What an operation returns: a result code, or a pointer to an event. -/
inductive Reply (E : Type) where
  | code (c : ℤ)
  | event (r : Option E)

/-- A heap and the set it should stand for. -/
structure Tracked (E : Type) where
  store : Store E
  set : KeyedSet E Timeval

variable {E : Type}

/-- How the operations are called: an event is pushed only while its position is -1, and only a
member is adjusted; an event that is erased is a member or has position -1. -/
def HeapOp.Called (x : Tracked E) : HeapOp E → Prop
  | .push e _ => (x.store.ev e).minHeapIdx = -1
  | .pop => True
  | .erase e => (x.store.ev e).minHeapIdx = -1 ∨ e ∈ x.set.members
  | .adjust e _ => e ∈ x.set.members
  | .top => True

/-- The heap after `min_heap_ctor_`, and the empty set. -/
def newHeap (s : Store E) : Tracked E :=
  ⟨minHeapCtor s, ⟨∅, fun e => (s.ev e).evTimeout⟩⟩

/-- The events in the live cells. -/
def liveEvents (s : Store E) : Option (List E) := (List.range s.heap.n).mapM fun i => s.cell i

/-- The heap stands for the set. -/
structure Represents (s : Store E) (a : KeyedSet E Timeval) : Prop where
  size : minHeapSize s = a.members.card
  live : ∃ l, liveEvents s = some l ∧ l.Nodup ∧ ∀ e, e ∈ l ↔ e ∈ a.members
  timeout : ∀ e ∈ a.members, (s.ev e).evTimeout = a.key e
  stop : ∀ e ∈ a.members, minHeapEltIsStop e s = true ↔ minHeapTop s = some (some e)

/-- The operations that neither store an event nor look at the top. -/
def HeapOp.NoCell : HeapOp E → Prop
  | .push _ _ => False
  | .top => False
  | _ => True

lemma forall_noCell_iff {ops : List (HeapOp E)} :
    (∀ op ∈ ops, op.NoCell) ↔ (∀ e t, .push e t ∉ ops) ∧ .top ∉ ops := by
  constructor
  · intro h
    exact ⟨fun e t hmem => h _ hmem, fun hmem => h _ hmem⟩
  · rintro ⟨hpush, htop⟩ op hmem
    cases op with
    | push e t => exact hpush e t hmem
    | top => exact htop hmem
    | pop => trivial
    | erase e => trivial
    | adjust e t => trivial

/-! ## The heap as constructed -/

/-- Nothing has happened since `min_heap_ctor_`. -/
structure AsConstructed (x : Tracked E) : Prop where
  heap : x.store.heap = ⟨none, 0, 0⟩
  members : x.set.members = ∅

lemma asConstructed_newHeap (s : Store E) : AsConstructed (newHeap s) := ⟨rfl, rfl⟩

lemma AsConstructed.represents {x : Tracked E} (h : AsConstructed x) :
    Represents x.store x.set := by
  have hno : ∀ e, e ∉ x.set.members := fun e => by simp [h.members]
  refine ⟨?_, ⟨[], ?_, List.nodup_nil, fun e => ?_⟩, fun e he => absurd he (hno e),
    fun e he => absurd he (hno e)⟩
  · rw [minHeapSize, h.heap, h.members]
    rfl
  · rw [liveEvents, h.heap]
    rfl
  · exact iff_of_false List.not_mem_nil (hno e)

/-! ## Operations -/

variable [DecidableEq E]

/-- `e->ev_timeout = t`, by the caller. -/
def Store.setTimeout (e : E) (t : Timeval) (s : Store E) : Store E :=
  { s with ev := Function.update s.ev e { s.ev e with evTimeout := t } }

/-- The operation, with every `mm_realloc` succeeding. -/
def HeapOp.run (T : SizeT) : HeapOp E → Store E → Option (Store E × Reply E)
  | .push e t, s =>
    (minHeapPush T (fun _ => true) e (s.setTimeout e t)).map fun r => (r.1, .code r.2)
  | .pop, s => (minHeapPop s).map fun r => (r.1, .event r.2)
  | .erase e, s => (minHeapErase e s).map fun r => (r.1, .code r.2)
  | .adjust e t, s =>
    (minHeapAdjust T (fun _ => true) e (s.setTimeout e t)).map fun r => (r.1, .code r.2)
  | .top, s => (minHeapTop s).map fun r => (s, .event r)

/-- What the operation does to the set. -/
def HeapOp.next (a : KeyedSet E Timeval) : HeapOp E → Reply E → KeyedSet E Timeval
  | .push e t, _ => a.put e t
  | .pop, .event r => a.take r
  | .pop, .code _ => a
  | .erase e, _ => a.remove e
  | .adjust e t, _ => a.rekey e t
  | .top, _ => a

/-- One operation on the heap and on the set. -/
def heapStep (T : SizeT) (op : HeapOp E) (x : Tracked E) : Option (Tracked E × List (Reply E)) :=
  (op.run T x.store).map fun r => (⟨r.1, op.next x.set r.2⟩, [r.2])

/-- The operation does to the heap what it should do to the set, and returns what it should. -/
structure Conforms (x : Tracked E) (op : HeapOp E) (r : Tracked E × List (Reply E)) : Prop where
  represents : Represents r.1.store r.1.set
  top : op = .top → ∃ t, r.2 = [.event t] ∧ x.set.IsTop t
  pop : op = .pop → ∃ t, r.2 = [.event t] ∧ x.set.IsTop t ∧
    ∀ e, t = some e → minHeapTop x.store = some (some e)

/-- Popping as often as there are members returns each of them once, in the order of
`ev_timeout`, and leaves the heap empty. -/
def DrainsInOrder (T : SizeT) (x : Tracked E) : Prop :=
  ∃ (l : List E) (y : Tracked E),
    exec (heapStep T) (List.replicate x.set.members.card .pop) x =
      some (y, l.map fun e => .event (some e)) ∧
    minHeapSize y.store = 0 ∧ l.Nodup ∧ (∀ e, e ∈ l ↔ e ∈ x.set.members) ∧
    (l.map x.set.key).Pairwise (· ≤ ·)

/-- The run of the operations from `min_heap_ctor_` refines the set, and what is left can be
drained in order. -/
structure Refines (T : SizeT) (s : Store E) (ops : List (HeapOp E)) : Prop where
  steps : Throughout (heapStep T) Conforms ops (newHeap s)
  drains : ∀ q, exec (heapStep T) ops (newHeap s) = some q → DrainsInOrder T q.1

variable {T : SizeT} {x : Tracked E} {op : HeapOp E}

/-! ## Draining -/

lemma heapStep_eq_some {r : Tracked E × List (Reply E)} :
    heapStep T op x = some r ↔
      ∃ q, op.run T x.store = some q ∧ r = (⟨q.1, op.next x.set q.2⟩, [q.2]) := by
  rw [heapStep, Option.map_eq_some_iff]
  simp only [eq_comm (b := r)]

/-- A conforming pop of a nonempty set takes a top element out. -/
lemma Conforms.exists_take {r : Tracked E × List (Reply E)} (h : Conforms x .pop r)
    (hr : heapStep T .pop x = some r) (hne : x.set.members ≠ ∅) :
    ∃ e, x.set.IsTop (some e) ∧ r.2 = [.event (some e)] ∧ r.1.set = x.set.remove e := by
  obtain ⟨t, hreply, htop, -⟩ := h.pop rfl
  obtain ⟨q, -, rfl⟩ := heapStep_eq_some.1 hr
  obtain ⟨s, reply⟩ := q
  obtain rfl : reply = .event t := by simpa using hreply
  cases t with
  | none => exact absurd htop hne
  | some e => exact ⟨e, htop, rfl, rfl⟩

/-- Conforming pops, one for each member, drain the set. -/
lemma exists_drains_of_throughout {k : ℕ} :
    ∀ {x : Tracked E}, x.set.members.card = k → Represents x.store x.set →
      Throughout (heapStep T) Conforms (List.replicate k .pop) x →
      ∃ l y, exec (heapStep T) (List.replicate k .pop) x =
          some (y, l.map fun e => .event (some e)) ∧
        minHeapSize y.store = 0 ∧ x.set.Drains l := by
  induction k with
  | zero =>
    intro x hcard hrep _
    exact ⟨[], x, rfl, hrep.size.trans hcard, .done (Finset.card_eq_zero.1 hcard)⟩
  | succ k ih =>
    rintro x hcard - ⟨r, hr, hconf, hrest⟩
    have hne : x.set.members ≠ ∅ := fun h => by simp [h] at hcard
    obtain ⟨e, htop, hreply, hset⟩ := hconf.exists_take hr hne
    have hcard' : r.1.set.members.card = k := by
      rw [hset, KeyedSet.remove, Finset.card_erase_of_mem htop.1]
      omega
    obtain ⟨l, y, hexec, hsize, hdrains⟩ := ih hcard' hconf.represents hrest
    refine ⟨e :: l, y, ?_, hsize, .take htop (hset ▸ hdrains)⟩
    rw [List.replicate_succ]
    refine exec_cons_eq_some.2 ⟨r, _, hr, hexec, ?_⟩
    rw [hreply]
    rfl

/-- So the run of pops returns the members in order. -/
theorem drainsInOrder_of_throughout (hrep : Represents x.store x.set)
    (h : Throughout (heapStep T) Conforms (List.replicate x.set.members.card .pop) x) :
    DrainsInOrder T x := by
  obtain ⟨l, y, hexec, hsize, hdrains⟩ := exists_drains_of_throughout rfl hrep h
  exact ⟨l, y, hexec, hsize, hdrains.nodup, hdrains.mem_iff, hdrains.sorted⟩

/-! ## One operation on the heap as constructed -/

omit [DecidableEq E] in
/-- Room for the first event is a block of 8 cells. -/
lemma minHeapRevserse_of_new {s : Store E} (h : s.heap = ⟨none, 0, 0⟩) :
    minHeapRevserse T (fun _ => true) 1 s =
      ({ s with heap := ⟨some (List.replicate 8 none), 0, 8⟩ }, 0) := by
  have hgrow : growth T 0 1 = .realloc 8 (8 * T.ptrSize) := by cases T <;> decide
  have hcells : 8 * T.ptrSize / T.ptrSize = 8 := by cases T <;> decide
  rw [minHeapRevserse, h, hgrow]
  simp [hcells, resize]

/-- The first event is stored behind that block, at index 2147483647. -/
lemma minHeapPush_of_new {s : Store E} {e : E} (h : s.heap = ⟨none, 0, 0⟩) :
    minHeapPush T (fun _ => true) e s = none := by
  have hn : toUInt32 (s.heap.n + 1) = 1 := by rw [h]; rfl
  rw [minHeapPush, hn, minHeapRevserse_of_new h, h]
  show (minHeapShiftUp 0 e _).bind _ = none
  rw [minHeapShiftUp_zero, put_of_le rfl (by simp)]
  rfl

/-- One operation on the heap as constructed: it conforms if it needs no cell, and is undefined
otherwise. -/
lemma AsConstructed.step (h : AsConstructed x) (hcalled : op.Called x) :
    (op.NoCell → ∃ r, heapStep T op x = some r ∧ Conforms x op r ∧ AsConstructed r.1) ∧
      (¬ op.NoCell → heapStep T op x = none) := by
  have hn : x.store.heap.n = 0 := by rw [h.heap]
  cases op with
  | push e t =>
    refine ⟨False.elim, fun _ => ?_⟩
    rw [heapStep, HeapOp.run, minHeapPush_of_new (s := x.store.setTimeout e t) h.heap]
    rfl
  | top =>
    refine ⟨False.elim, fun _ => ?_⟩
    rw [heapStep, HeapOp.run, minHeapTop_of_eq_zero hn, Store.cell, h.heap]
    rfl
  | pop =>
    refine ⟨fun _ => ⟨(x, [.event none]), ?_, ⟨h.represents, fun hop => by simp at hop,
      fun _ => ⟨none, rfl, h.members, fun e he => by simp at he⟩⟩, h⟩,
      fun hno => absurd trivial hno⟩
    rw [heapStep, HeapOp.run, minHeapPop_of_eq_zero hn]
    rfl
  | erase e =>
    have hidx : (x.store.ev e).minHeapIdx = -1 :=
      hcalled.resolve_right fun hmem => by simp [h.members] at hmem
    have h' : AsConstructed ⟨x.store, x.set.remove e⟩ :=
      ⟨h.heap, by simp [KeyedSet.remove, h.members]⟩
    refine ⟨fun _ => ⟨(⟨x.store, x.set.remove e⟩, [.code (-1)]), ?_,
      ⟨h'.represents, fun hop => by simp at hop, fun hop => by simp at hop⟩, h'⟩,
      fun hno => absurd trivial hno⟩
    rw [heapStep, HeapOp.run, minHeapErase_of_unmarked hidx]
    rfl
  | adjust e t =>
    have hmem : e ∈ x.set.members := hcalled
    simp [h.members] at hmem

/-! ## Runs -/

lemma throughout_conforms_iff {ops : List (HeapOp E)} (h : AsConstructed x)
    (hcalled : Allowed (heapStep T) HeapOp.Called ops x) :
    Throughout (heapStep T) Conforms ops x ↔ ∀ op ∈ ops, op.NoCell := by
  refine (throughout_iff_allowed AsConstructed (C := fun _ op => op.NoCell)
    (fun x op hx hc => ?_) (fun x op r hx hc hno hr => ?_) h hcalled).trans
    (allowed_iff_forall AsConstructed (fun x op hx hc hno => ?_) h hcalled)
  · constructor
    · rintro ⟨r, hr, -⟩
      by_contra hno
      rw [(hx.step hc).2 hno] at hr
      simp at hr
    · intro hno
      obtain ⟨r, hr, hconf, -⟩ := (hx.step hc).1 hno
      exact ⟨r, hr, hconf⟩
  · obtain ⟨r', hr', -, hinv⟩ := (hx.step hc).1 hno
    obtain rfl : r = r' := Option.some.inj (hr.symm.trans hr')
    exact hinv
  · obtain ⟨r, hr, -, hinv⟩ := (hx.step hc).1 hno
    exact ⟨r, hr, hinv⟩

/-- One event, of one second, that is in no heap. -/
def idleTimer : Store Unit := ⟨⟨none, 0, 0⟩, fun _ => ⟨-1, ⟨1, 0⟩⟩⟩

/-- Pushing it on a new heap is undefined. -/
theorem push_not_refines :
    Allowed (heapStep .bits64) HeapOp.Called [.push () ⟨1, 0⟩] (newHeap idleTimer) ∧
      heapStep .bits64 (.push () ⟨1, 0⟩) (newHeap idleTimer) = none ∧
      ¬ Refines .bits64 idleTimer [.push () ⟨1, 0⟩] := by
  have hstep : heapStep .bits64 (.push () ⟨1, 0⟩) (newHeap idleTimer) = none := by
    rw [heapStep, HeapOp.run, minHeapPush_of_new rfl]
    rfl
  refine ⟨⟨rfl, fun _ _ => trivial⟩, hstep, fun ⟨hsteps, _⟩ => ?_⟩
  obtain ⟨r, hr, -⟩ := hsteps
  rw [hstep] at hr
  cases hr

/-- **The heap refines the set exactly in the runs that put nothing in and never ask for the
top.**  Every other run from `min_heap_ctor_` reaches an undefined step: the first push, or the
first question for the top. -/
theorem refines_iff (T : SizeT) (s : Store E) (ops : List (HeapOp E))
    (hcalled : Allowed (heapStep T) HeapOp.Called ops (newHeap s)) :
    Refines T s ops ↔ (∀ e t, .push e t ∉ ops) ∧ .top ∉ ops := by
  rw [← forall_noCell_iff, ← throughout_conforms_iff (asConstructed_newHeap s) hcalled]
  refine ⟨Refines.steps, fun hsteps => ⟨hsteps, fun q hq => ?_⟩⟩
  have hno := (throughout_conforms_iff (asConstructed_newHeap s) hcalled).1 hsteps
  have hinv : AsConstructed q.1 := by
    refine exec_inv AsConstructed (fun x op r hx hc hr => ?_) (asConstructed_newHeap s)
      (hcalled.and_forall hno) hq
    obtain ⟨r', hr', -, hinv⟩ := (hx.step hc.1).1 hc.2
    obtain rfl : r = r' := Option.some.inj (hr.symm.trans hr')
    exact hinv
  refine drainsInOrder_of_throughout hinv.represents ?_
  rw [hinv.members]
  trivial

/-- Erasing and popping go well on a new heap, and pushing before them does not. -/
theorem refines_iff_idleTimer :
    Refines .bits64 idleTimer [.erase (), .pop] ∧
      ¬ Refines .bits64 idleTimer [.push () ⟨1, 0⟩, .pop] := by
  constructor
  · refine (refines_iff .bits64 idleTimer [.erase (), .pop] ?_).2 ⟨by simp, by simp⟩
    exact ⟨Or.inl rfl, fun _ _ => ⟨trivial, fun _ _ => trivial⟩⟩
  · rw [refines_iff .bits64 idleTimer [.push () ⟨1, 0⟩, .pop]
      ⟨rfl, fun _ _ => ⟨trivial, fun _ _ => trivial⟩⟩]
    rintro ⟨hpush, -⟩
    exact hpush () ⟨1, 0⟩ (by simp)

end LibeventLearn.Event2
