import LibeventLearn.Lib.CMemory
import Mathlib.Data.Prod.Lex

/-!
# The timer heap

`struct min_heap` and the functions on it: an array `p` of pointers to events, of which the
first `n` are live and `a` are allocated, each live event keeping its own position in
`min_heap_idx`.

An event is an element of any type `E`, and what is stored in it is a function of it.  A step
that the language leaves undefined is `none`: to dereference NULL, to access the array outside
of its block, to use a cell that nobody has stored in, to overflow an `int`.
-/

namespace LibeventLearn.Event2

open Lib

/-! ## Time values -/

/-- `struct timeval`. -/
structure Timeval where
  tvSec : ℤ
  tvUsec : ℤ
deriving DecidableEq

/-- `evutil_timercmp`. -/
def evutilTimercmp (tvp uvp : Timeval) (cmp : ℤ → ℤ → Bool) : Bool :=
  if tvp.tvSec = uvp.tvSec then cmp tvp.tvUsec uvp.tvUsec else cmp tvp.tvSec uvp.tvSec

lemma timeval_injective : Function.Injective fun t : Timeval => toLex (t.tvSec, t.tvUsec) := by
  rintro ⟨sec, usec⟩ ⟨sec', usec'⟩ h
  obtain ⟨rfl, rfl⟩ := Prod.ext_iff.1 (toLex.injective h)
  rfl

/-- Time values in the order of time. -/
instance : LinearOrder Timeval :=
  LinearOrder.lift' (fun t : Timeval => toLex (t.tvSec, t.tvUsec)) timeval_injective

lemma timeval_lt_iff {t u : Timeval} :
    t < u ↔ t.tvSec < u.tvSec ∨ t.tvSec = u.tvSec ∧ t.tvUsec < u.tvUsec := by
  show toLex (t.tvSec, t.tvUsec) < toLex (u.tvSec, u.tvUsec) ↔ _
  rw [Prod.Lex.toLex_lt_toLex]

/-! ## Events and the heap -/

/-- The fields of `struct event` that the heap uses. -/
structure Event where
  /-- The position in the heap, or -1. -/
  minHeapIdx : ℤ
  evTimeout : Timeval
deriving DecidableEq

/-- `struct min_heap`.  A cell of the array is `none` as long as nobody has stored in it. -/
structure MinHeap (E : Type) where
  /-- The array: its block, or NULL. -/
  p : Option (List (Option E))
  /-- The number of live cells. -/
  n : ℕ
  /-- The number of cells allocated. -/
  a : ℕ

/-- The memory a heap lives in: its header and the events. -/
structure Store (E : Type) where
  heap : MinHeap E
  ev : E → Event

/-- The two widths of `size_t` and of pointers. -/
inductive SizeT where
  | bits32
  | bits64

/-- The number of values of `size_t`. -/
def SizeT.card : SizeT → ℕ
  | .bits32 => 2 ^ 32
  | .bits64 => 2 ^ 64

/-- `sizeof(struct event *)`. -/
def SizeT.ptrSize : SizeT → ℕ
  | .bits32 => 4
  | .bits64 => 8

/-- `(hole_index - 1) / 2` in `unsigned`. -/
def parentIdx (hole : ℕ) : ℕ := toUInt32 (hole - 1) / 2

/-- `(hole_index + 1) * 2` in `unsigned`. -/
def childIdx (hole : ℕ) : ℕ := toUInt32 ((hole + 1) * 2)

/-- More rounds than a loop over positions that only grow or only shrink can make. -/
def loopFuel : ℕ := 2 ^ 32

section Access

variable {E : Type}

/-- `s->p[i]`, used as a pointer to an event. -/
def Store.cell (i : ℕ) (s : Store E) : Option E := do
  let p ← s.heap.p
  let c ← p[i]?
  c

variable [DecidableEq E]

/-- `e->ev_timeout_pos.min_heap_idx = v`. -/
def Store.mark (e : E) (v : ℤ) (s : Store E) : Store E :=
  { s with ev := Function.update s.ev e { s.ev e with minHeapIdx := toInt32 v } }

/-- `(s->p[i] = e)->ev_timeout_pos.min_heap_idx = v`. -/
def Store.put (i : ℕ) (e : E) (v : ℕ) (s : Store E) : Option (Store E) := do
  let p ← s.heap.p
  if i < p.length then
    some (({ s with heap := { s.heap with p := some (p.set i (some e)) } } : Store E).mark e v)
  else none

end Access

/-- `min_heap_elem_greater`. -/
def minHeapElemGreater {E : Type} (x y : E) (s : Store E) : Bool :=
  evutilTimercmp (s.ev x).evTimeout (s.ev y).evTimeout (fun u v => decide (u > v))

/-- The comparison is the order of time. -/
@[simp] lemma minHeapElemGreater_iff {E : Type} {x y : E} {s : Store E} :
    minHeapElemGreater x y s = true ↔ (s.ev y).evTimeout < (s.ev x).evTimeout := by
  rw [timeval_lt_iff, minHeapElemGreater, evutilTimercmp]
  split
  · rename_i h
    simp [h]
  · rename_i h
    have : (s.ev y).evTimeout.tvSec ≠ (s.ev x).evTimeout.tvSec := Ne.symm h
    simp [this]

/-! ## Growing the array -/

/-- What `min_heap_revserse_` does about room for `n` cells. -/
inductive Growth where
  | enough
  /-- The test that is compiled in where `size_t` has 32 bits. -/
  | tooLarge
  /-- `mm_realloc` is asked for `bytes`, for a capacity of `a`. -/
  | realloc (a bytes : ℕ)
deriving DecidableEq

/-- The capacity that `min_heap_revserse_` chooses. -/
def newCapacity (a n : ℕ) : ℕ :=
  let a := if a = 0 then 8 else toUInt32 (a * 2)
  if a < n then n else a

/-- The decision of `min_heap_revserse_` on a heap of capacity `a`. -/
def growth (T : SizeT) (a n : ℕ) : Growth :=
  if a < n then
    let a := newCapacity a n
    match T with
    | .bits32 =>
      if a > (T.card - 1) / T.ptrSize then .tooLarge else .realloc a (a * T.ptrSize % T.card)
    | .bits64 => .realloc a (a * T.ptrSize % T.card)
  else .enough

variable {E : Type}

/-- The block that `mm_realloc` returns: the cells that fit in, and new ones. -/
def resize (p : Option (List (Option E))) (cells : ℕ) : List (Option E) :=
  let old := (p.getD []).take cells
  old ++ List.replicate (cells - old.length) none

/-- `min_heap_revserse_`, where `realloc` says of which sizes `mm_realloc` finds a block. -/
def minHeapRevserse (T : SizeT) (realloc : ℕ → Bool) (n : ℕ) (s : Store E) : Store E × ℤ :=
  match growth T s.heap.a n with
  | .enough => (s, 0)
  | .tooLarge => (s, -1)
  | .realloc a bytes =>
    if realloc bytes then
      ({ s with heap := { s.heap with a := a, p := some (resize s.heap.p (bytes / T.ptrSize)) } },
        0)
    else (s, -1)

/-! ## The functions without a loop -/

/-- `min_heap_ctor_`. -/
def minHeapCtor (s : Store E) : Store E := { s with heap := ⟨none, 0, 0⟩ }

/-- `min_heap_empty_`. -/
def minHeapEmpty (s : Store E) : Bool := s.heap.n == 0

/-- `min_heap_size_`. -/
def minHeapSize (s : Store E) : ℕ := s.heap.n

/-- `min_heap_top_`: the pointer it returns, where `none` inside is NULL. -/
def minHeapTop (s : Store E) : Option (Option E) :=
  if s.heap.n ≠ 0 then some none else (s.cell 0).map some

/-- `min_heap_top_` has the two cases the wrong way round: of a heap with elements it returns
NULL. -/
lemma minHeapTop_of_ne_zero {s : Store E} (h : s.heap.n ≠ 0) : minHeapTop s = some none :=
  if_pos h

/-- Of an empty heap, `min_heap_top_` looks into the first cell. -/
lemma minHeapTop_of_eq_zero {s : Store E} (h : s.heap.n = 0) :
    minHeapTop s = (s.cell 0).map some := if_neg (by simp [h])

/-- `min_heap_elt_is_stop_`. -/
def minHeapEltIsStop (e : E) (s : Store E) : Bool := (s.ev e).minHeapIdx == 0

variable [DecidableEq E]

/-- `min_heap_elem_init_`. -/
def minHeapElemInit (e : E) (s : Store E) : Store E := s.mark e (-1)

/-! ## The loops that move the hole -/

/-- `hole_index > 0 && min_heap_elem_greater(s->p[parent], e)`, as both upward loops test it. -/
def parentGreater (hole : ℕ) (e : E) (s : Store E) : Option Bool :=
  if hole = 0 then some false
  else (s.cell (parentIdx hole)).map fun x => minHeapElemGreater x e s

/-- The `do` loop of `min_heap_shift_up_unconditional_`, and the hole it leaves. -/
def shiftUpUnconditionalLoop : ℕ → ℕ → E → Store E → Option (Store E × ℕ)
  | 0, _, _, _ => none
  | fuel + 1, hole, e, s => do
    let x ← s.cell (parentIdx hole)
    let s ← s.put hole x hole
    let hole := parentIdx hole
    let again ← parentGreater hole e s
    if again then shiftUpUnconditionalLoop fuel hole e s else some (s, hole)

/-- `min_heap_shift_up_unconditional_`. -/
def minHeapShiftUpUnconditional (hole : ℕ) (e : E) (s : Store E) : Option (Store E) := do
  let (s, hole) ← shiftUpUnconditionalLoop loopFuel hole e s
  s.put hole e hole

/-- The loop of `min_heap_shift_up_`, and the hole it leaves.  It stores `e` at the parent, and
moves no event down. -/
def shiftUpLoop : ℕ → ℕ → E → Store E → Option (Store E × ℕ)
  | 0, _, _, _ => none
  | fuel + 1, hole, e, s => do
    let again ← parentGreater hole e s
    if again then
      let s ← s.put (parentIdx hole) e hole
      shiftUpLoop fuel (parentIdx hole) e s
    else some (s, hole)

/-- `min_heap_shift_up_`, whose last store is at the parent of the hole. -/
def minHeapShiftUp (hole : ℕ) (e : E) (s : Store E) : Option (Store E) := do
  let (s, hole) ← shiftUpLoop loopFuel hole e s
  s.put (parentIdx hole) e hole

/-- `min_child -= min_child == s->n || min_heap_elem_greater(..)`. -/
def chooseChild (minChild : ℕ) (s : Store E) : Option ℕ :=
  if minChild = s.heap.n then some (toUInt32 (minChild - 1))
  else do
    let right ← s.cell minChild
    let left ← s.cell (toUInt32 (minChild - 1))
    some (if minHeapElemGreater right left s then toUInt32 (minChild - 1) else minChild)

/-- The loop of `min_heap_shift_down_`, the hole it leaves and its `min_child`. -/
def shiftDownLoop : ℕ → ℕ → ℕ → E → Store E → Option (Store E × ℕ × ℕ)
  | 0, _, _, _, _ => none
  | fuel + 1, hole, minChild, e, s =>
    if minChild ≤ s.heap.n then do
      let minChild ← chooseChild minChild s
      let y ← s.cell minChild
      if minHeapElemGreater e y s then
        let s ← s.put hole y hole
        shiftDownLoop fuel minChild (childIdx minChild) e s
      else some (s, hole, minChild)
    else some (s, hole, minChild)

/-- `min_heap_shift_down_`, whose last store is at `min_child`. -/
def minHeapShiftDown (hole : ℕ) (e : E) (s : Store E) : Option (Store E) := do
  let (s, hole, minChild) ← shiftDownLoop loopFuel hole (childIdx hole) e s
  s.put minChild e hole

/-! ## The operations -/

/-- `min_heap_push_`. -/
def minHeapPush (T : SizeT) (realloc : ℕ → Bool) (e : E) (s : Store E) :
    Option (Store E × ℤ) :=
  if s.heap.n = 2 ^ 32 - 1 then some (s, -1)
  else
    let (s, failed) := minHeapRevserse T realloc (toUInt32 (s.heap.n + 1)) s
    if failed ≠ 0 then some (s, -1)
    else do
      let hole := s.heap.n
      let s ← minHeapShiftUp hole e
        { s with heap := { s.heap with n := toUInt32 (s.heap.n + 1) } }
      some (s, 0)

/-- `min_heap_pop_`. -/
def minHeapPop (s : Store E) : Option (Store E × Option E) :=
  if s.heap.n ≠ 0 then do
    let e ← minHeapTop s
    let n := toUInt32 (s.heap.n - 1)
    let last ← s.cell n
    let s ← minHeapShiftDown 0 last { s with heap := { s.heap with n := n } }
    -- NULL is dereferenced here
    let e ← e
    some (s.mark e (-1), some e)
  else some (s, none)

/-- Repairing the heap at the position that `e` has noted, with the event `x` to go there: which
of the two directions `min_heap_erase_` and `min_heap_adjust_` take. -/
def goesUp (e x : E) (s : Store E) : Option Bool := do
  let below ← subInt32 (s.ev e).minHeapIdx 1
  if (s.ev e).minHeapIdx > 0 then
    let y ← s.cell (toUInt32 (below.tdiv 2))
    some (minHeapElemGreater y x s)
  else some false

/-- `min_heap_erase_`. -/
def minHeapErase (e : E) (s : Store E) : Option (Store E × ℤ) :=
  if (s.ev e).minHeapIdx ≠ -1 then do
    let n := toUInt32 (s.heap.n - 1)
    let last ← s.cell n
    let s : Store E := { s with heap := { s.heap with n := n } }
    let hole := toUInt32 (s.ev e).minHeapIdx
    let up ← goesUp e last s
    if up then
      let s ← minHeapShiftUpUnconditional hole last s
      some (s, -1)
    else
      let s ← minHeapShiftDown hole last s
      some (s.mark e (-1), 0)
  else some (s, -1)

/-- `min_heap_adjust_`. -/
def minHeapAdjust (T : SizeT) (realloc : ℕ → Bool) (e : E) (s : Store E) :
    Option (Store E × ℤ) :=
  if (s.ev e).minHeapIdx = -1 then minHeapPush T realloc e s
  else do
    let hole := toUInt32 (s.ev e).minHeapIdx
    let up ← goesUp e e s
    if up then
      let s ← minHeapShiftUpUnconditional hole e s
      some (s, 0)
    else
      let s ← minHeapShiftDown hole e s
      some (s, 0)

/-! ## What the operations do -/

variable {s : Store E} {e : E}

/-- So `min_heap_pop_` dereferences NULL whenever there is an element. -/
theorem minHeapPop_of_ne_zero (h : s.heap.n ≠ 0) : minHeapPop s = none := by
  rw [minHeapPop, if_pos h, minHeapTop_of_ne_zero h]
  simp

lemma minHeapPop_of_eq_zero (h : s.heap.n = 0) : minHeapPop s = some (s, none) :=
  if_neg (by simp [h])

lemma minHeapErase_of_unmarked (h : (s.ev e).minHeapIdx = -1) :
    minHeapErase e s = some (s, -1) := if_neg (by simp [h])

/-- A store outside of the block. -/
lemma put_of_le {p : List (Option E)} {i v : ℕ} (hp : s.heap.p = some p) (hi : p.length ≤ i) :
    s.put i e v = none := by
  rw [Store.put, hp]
  exact if_neg (by omega)

/-- At the root `min_heap_shift_up_` computes the parent by wrapping around, and stores there. -/
lemma minHeapShiftUp_zero : minHeapShiftUp 0 e s = s.put (2 ^ 31 - 1) e 0 := rfl

end LibeventLearn.Event2
