import LibeventLearn.Event2.Refinement
import LibeventLearn.Event2.Shifts

/-!
# Valid heaps

In a valid heap every live cell holds an event that keeps the position of its cell, and no
event is greater than the one below it.  This file has the lemmas on such heaps that are about
no operation in particular, the two equations by which erase and adjust come down to the loops,
and heaps of given keys.
-/

namespace LibeventLearn.Event2

open Lib

variable {E : Type}

/-- The cells below `n` hold events that keep their positions. -/
def Backed (s : Store E) (n : ℕ) : Prop :=
  ∀ i < n, ∃ e, s.cell i = some e ∧ (s.ev e).minHeapIdx = i

/-- The header of the heap tells the size of its block, and every live cell holds an event that
keeps its position. -/
structure Placed (s : Store E) : Prop where
  n_le : s.heap.n ≤ s.heap.a
  a_lt : s.heap.a < 2 ^ 32
  size : s.size = s.heap.a
  int : ∀ e, IsInt32 (s.ev e).minHeapIdx
  live : ∀ i < s.heap.n, ∃ e, s.cell i = some e ∧ (s.ev e).minHeapIdx = i

/-- A heap in order. -/
structure Valid (s : Store E) : Prop extends Placed s where
  order : Ordered s.key s.heap.n

/-- The event is in a live cell. -/
def Live (s : Store E) (e : E) : Prop := ∃ i < s.heap.n, s.cell i = some e

variable {s s' : Store E} {e x y : E} {h i j n : ℕ} {t : Timeval}

namespace Backed

lemma idx (hb : Backed s n) (hi : i < n) (hc : s.cell i = some e) :
    (s.ev e).minHeapIdx = i := by
  obtain ⟨x, hx, hxi⟩ := hb i hi
  obtain rfl : x = e := Option.some.inj (hx.symm.trans hc)
  exact hxi

/-- Events that keep their positions are distinct. -/
lemma cell_injective (hb : Backed s n) (hi : i < n) (hj : j < n) (hci : s.cell i = some e)
    (hcj : s.cell j = some e) : i = j := by
  have hij := (hb.idx hi hci).symm.trans (hb.idx hj hcj)
  omega

lemma filled (hb : Backed s n) : Filled s n := by
  intro i hi
  obtain ⟨e, he, -⟩ := hb i hi
  exact ⟨e, he⟩

/-- The hole is in the array, and the event to go into it is the one of its cell or in none. -/
lemma holed (hb : Backed s n) (hh : h < n)
    (hx : s.cell h = some x ∨ ∀ i < n, s.cell i ≠ some x) : Holed s n h x := by
  refine ⟨hh, hb.filled.le_size, fun i hi hne => ?_⟩
  obtain ⟨e, he, hei⟩ := hb i hi
  refine ⟨e, ?_, he, hei⟩
  rintro rfl
  rcases hx with hx | hx
  · exact hne (hb.cell_injective hi hh he hx)
  · exact hx i hi he

/-- The hole is in the array or right behind it, and the event to go into it is in no cell. -/
lemma holed_of_le (hb : Backed s n) (hh : h ≤ n) (hsize : h < s.size)
    (hx : ∀ i < n, s.cell i ≠ some x) : Holed s (max n (h + 1)) h x := by
  have hle := hb.filled.le_size
  refine ⟨by omega, by omega, fun i hi hne => ?_⟩
  obtain ⟨e, he, hei⟩ := hb i (by omega)
  refine ⟨e, ?_, he, hei⟩
  rintro rfl
  exact hx i (by omega) he

end Backed

namespace Placed

lemma backed (hp : Placed s) : Backed s s.heap.n := hp.live

lemma idx (hp : Placed s) (hi : i < s.heap.n) (hc : s.cell i = some e) :
    (s.ev e).minHeapIdx = i := hp.backed.idx hi hc

/-- The events in the live cells are distinct. -/
lemma cell_injective (hp : Placed s) (hi : i < s.heap.n) (hj : j < s.heap.n)
    (hci : s.cell i = some e) (hcj : s.cell j = some e) : i = j :=
  hp.backed.cell_injective hi hj hci hcj

lemma cell_of_live (hp : Placed s) (hl : Live s e) (hi : (s.ev e).minHeapIdx = i) :
    i < s.heap.n ∧ s.cell i = some e := by
  obtain ⟨j, hj, hc⟩ := hl
  have hij := (hp.idx hj hc).symm.trans hi
  obtain rfl : j = i := by omega
  exact ⟨hj, hc⟩

/-- What holds at the position of a live event. -/
lemma forall_cell_iff {P : ℕ → Prop} (hp : Placed s) (hi : i < s.heap.n)
    (hc : s.cell i = some e) : (∀ j < s.heap.n, s.cell j = some e → P j) ↔ P i := by
  constructor
  · intro h
    exact h i hi hc
  · intro h j hj hcj
    obtain rfl := hp.cell_injective hi hj hc hcj
    exact h

lemma filled (hp : Placed s) : Filled s s.heap.n := hp.backed.filled

lemma parent_filled (hp : Placed s) (hi : i < s.heap.n) (h0 : 0 < i) :
    ∃ e, s.cell (parent i) = some e :=
  hp.filled _ ((parent_lt h0).trans hi)

/-- Positions are values of `int`, so there are no more than those. -/
lemma n_le_int (hp : Placed s) : s.heap.n ≤ 2 ^ 31 := by
  by_contra hlt
  obtain ⟨e, -, he⟩ := hp.live (s.heap.n - 1) (by omega)
  have hint := (hp.int e).2
  omega

/-- The heap with a hole at `i`, for the event of that cell. -/
lemma holed (hp : Placed s) (hi : i < s.heap.n) (hc : s.cell i = some e) :
    Holed s s.heap.n i e := hp.backed.holed hi (Or.inl hc)

end Placed

lemma Live.n_pos (hl : Live s e) : 0 < s.heap.n := by
  obtain ⟨i, hi, -⟩ := hl
  omega

/-- A heap of the first cells of a valid one. -/
lemma Valid.of_prefix (hv : Valid s) (hn : s'.heap.n ≤ s.heap.n) (ha : s'.heap.a = s.heap.a)
    (hsize : s'.size = s.size) (hint : ∀ e, IsInt32 (s'.ev e).minHeapIdx)
    (hcell : ∀ i < s'.heap.n, s'.cell i = s.cell i)
    (hev : ∀ i < s'.heap.n, ∀ e, s.cell i = some e → s'.ev e = s.ev e) : Valid s' := by
  have hp := hv.toPlaced
  have hkey : ∀ i < s'.heap.n, s'.key i = s.key i := by
    intro i hi
    obtain ⟨e, he, -⟩ := hp.live i (hi.trans_le hn)
    rw [key_of_cell ((hcell i hi).trans he), key_of_cell he, hev i hi e he]
  refine ⟨⟨?_, ?_, ?_, hint, fun i hi => ?_⟩, ?_⟩
  · rw [ha]
    exact hn.trans hp.n_le
  · rw [ha]
    exact hp.a_lt
  · rw [hsize, ha]
    exact hp.size
  · obtain ⟨e, he, hei⟩ := hp.live i (hi.trans_le hn)
    exact ⟨e, (hcell i hi).trans he, by rw [hev i hi e he, hei]⟩
  · have ho : Ordered s.key s'.heap.n := fun i h0 hi => hv.order i h0 (hi.trans_le hn)
    exact ho.congr hkey

/-! ## One cell fewer -/

/-- `--s->n`. -/
def Store.shrink (s : Store E) : Store E := { s with heap := { s.heap with n := s.heap.n - 1 } }

@[simp] lemma shrink_n : s.shrink.heap.n = s.heap.n - 1 := rfl

@[simp] lemma shrink_size : s.shrink.size = s.size := rfl

lemma Placed.shrink (hp : Placed s) : Placed s.shrink :=
  ⟨(Nat.sub_le _ _).trans hp.n_le, hp.a_lt, hp.size, hp.int,
    fun i hi => hp.live i (hi.trans_le (Nat.sub_le _ _))⟩

/-- The heap with a hole at `i`, for the event that was in the last cell. -/
lemma Placed.holed_shrink (hp : Placed s) (hi : i < s.heap.n - 1)
    (hc : s.cell (s.heap.n - 1) = some x) : Holed s.shrink (s.heap.n - 1) i x := by
  refine hp.shrink.backed.holed hi (Or.inr fun j hj hx => ?_)
  rw [shrink_n] at hj
  have hji := hp.cell_injective (by omega) (by omega) hx hc
  omega

lemma toUInt32_pred (hn : s.heap.n ≠ 0) (hlt : s.heap.n ≤ 2 ^ 31) :
    toUInt32 ((s.heap.n : ℤ) - 1) = s.heap.n - 1 := by
  unfold toUInt32
  omega

/-! ## Heaps of given keys -/

/-- The heap of events 0, 1, .. with the given seconds, in a block of `a` cells. -/
def heapOf (secs : List ℤ) (a : ℕ) : Store ℕ where
  heap :=
    { p := some ((List.range secs.length).map some ++ List.replicate (a - secs.length) none)
      n := secs.length
      a := a }
  ev e := ⟨if e < secs.length then e else -1, ⟨secs.getD e 0, 0⟩⟩

lemma cell_heapOf {secs : List ℤ} {a : ℕ} (hi : i < secs.length) :
    (heapOf secs a).cell i = some i := by
  rw [cell_of_block rfl, List.getElem?_append_left (by simpa using hi)]
  simp [hi]

lemma eq_of_cell_heapOf {secs : List ℤ} {a m : ℕ} (hi : i < secs.length)
    (hc : (heapOf secs a).cell i = some m) : i = m :=
  Option.some.inj ((cell_heapOf hi).symm.trans hc)

/-- Such a heap is valid if the seconds are in order. -/
lemma valid_heapOf {secs : List ℤ} {a : ℕ}
    (h : secs.length ≤ a ∧ a < 2 ^ 32 ∧ secs.length ≤ 2 ^ 31 ∧
      Ordered (secs.getD · 0) secs.length) : Valid (heapOf secs a) := by
  obtain ⟨hle, ha, hlt, ho⟩ := h
  refine ⟨⟨hle, ha, ?_, fun e => ?_, fun i hi => ⟨i, cell_heapOf hi, if_pos hi⟩⟩,
    fun i h0 hi => ?_⟩
  · simp [Store.size, heapOf, hle]
  · show IsInt32 (if e < secs.length then (e : ℤ) else -1)
    unfold IsInt32
    split <;> omega
  · have hp := (parent_lt h0).trans hi
    rw [key_of_cell (cell_heapOf hi), key_of_cell (cell_heapOf hp)]
    have hsec : secs.getD (parent i) 0 ≤ secs.getD i 0 := ho i h0 hi
    rw [← not_lt, timeval_lt_iff]
    simp only [heapOf]
    omega

/-! ## The direction of the repair -/

/-- An event at position `i` is repaired upwards if it is not at the root and what comes to its
place is smaller than its parent. -/
lemma goesUp_eq (hidx : (s.ev e).minHeapIdx = i) (hi : i < 2 ^ 31)
    (hfill : 0 < i → ∃ y, s.cell (parent i) = some y) :
    goesUp e x s = some (decide (0 < i ∧ (s.ev x).evTimeout < s.key (parent i))) := by
  have hsub : subInt32 (s.ev e).minHeapIdx 1 = some ((i : ℤ) - 1) := by
    rw [hidx]
    exact if_pos ⟨by omega, by omega⟩
  rw [goesUp, hsub]
  simp only [Option.bind_eq_bind, Option.bind_some, hidx]
  rcases Nat.eq_zero_or_pos i with rfl | h0
  · simp
  · obtain ⟨y, hy⟩ := hfill h0
    have hpar : toUInt32 (((i : ℤ) - 1).tdiv 2) = parent i := by
      rw [Int.tdiv_eq_ediv_of_nonneg (by omega)]
      unfold toUInt32 parent
      omega
    rw [if_pos (by omega), hpar, hy, Option.bind_some, key_of_cell hy]
    refine congrArg some ?_
    rw [Bool.eq_iff_iff, minHeapElemGreater_iff, decide_eq_true_iff, and_iff_right h0]

variable [DecidableEq E]

/-! ## Another time -/

lemma setTimeout_ev_self : (s.setTimeout e t).ev e = { s.ev e with evTimeout := t } :=
  Function.update_self ..

lemma setTimeout_ev_of_ne (hne : x ≠ e) : (s.setTimeout e t).ev x = s.ev x :=
  Function.update_of_ne hne ..

@[simp] lemma setTimeout_idx : ((s.setTimeout e t).ev x).minHeapIdx = (s.ev x).minHeapIdx := by
  rcases eq_or_ne x e with rfl | hne
  · rw [setTimeout_ev_self]
  · rw [setTimeout_ev_of_ne hne]

lemma Placed.setTimeout (hp : Placed s) : Placed (s.setTimeout e t) := by
  refine ⟨hp.n_le, hp.a_lt, hp.size, fun x => ?_, fun i hi => ?_⟩
  · rw [setTimeout_idx]
    exact hp.int x
  · obtain ⟨x, hx, hxi⟩ := hp.live i hi
    exact ⟨x, hx, setTimeout_idx.trans hxi⟩

/-- The keys of the other live cells stay. -/
lemma Placed.key_setTimeout (hp : Placed s) (hi : i < s.heap.n) (hc : s.cell i = some e)
    (hj : j < s.heap.n) (hne : j ≠ i) : (s.setTimeout e t).key j = s.key j := by
  obtain ⟨x, hx, -⟩ := hp.live j hj
  have hxe : x ≠ e := by
    rintro rfl
    exact hne (hp.cell_injective hj hi hx hc)
  rw [key_of_cell (s := s.setTimeout e t) hx, key_of_cell hx, setTimeout_ev_of_ne hxe]

/-! ## Erase and adjust -/

/-- Erasing the event at position `i`, for which the last event `x` comes in. -/
lemma minHeapErase_eq (hp : Placed s) (hi : i < s.heap.n) (hc : s.cell i = some e)
    (hx : s.cell (s.heap.n - 1) = some x) :
    minHeapErase e s =
      if 0 < i ∧ (s.ev x).evTimeout < s.key (parent i) then
        (minHeapShiftUpUnconditional i x s.shrink).map fun s' => (s', -1)
      else (minHeapShiftDown i x s.shrink).map fun s' => (s'.mark e (-1), 0) := by
  have hn := hp.n_le_int
  have hidx := hp.idx hi hc
  have hfill : 0 < i → ∃ y, s.shrink.cell (parent i) = some y := hp.parent_filled hi
  rw [minHeapErase, if_pos (by omega), toUInt32_pred (by omega) hn]
  show (s.cell (s.heap.n - 1)).bind _ = _
  have hgo : goesUp e x s.shrink =
      some (decide (0 < i ∧ (s.ev x).evTimeout < s.key (parent i))) :=
    goesUp_eq hidx (by omega) hfill
  rw [hx]
  show (goesUp e x s.shrink).bind _ = _
  rw [hgo, hidx, toUInt32_natCast (by omega)]
  by_cases hup : 0 < i ∧ (s.ev x).evTimeout < s.key (parent i)
  · rw [if_pos hup, Option.bind_some, if_pos (decide_eq_true hup)]
    show (minHeapShiftUpUnconditional i x s.shrink).bind _ = _
    cases minHeapShiftUpUnconditional i x s.shrink <;> rfl
  · rw [if_neg hup, Option.bind_some, if_neg (by simpa using hup)]
    show (minHeapShiftDown i x s.shrink).bind _ = _
    cases minHeapShiftDown i x s.shrink <;> rfl

/-- Adjusting the event at position `i`. -/
lemma minHeapAdjust_eq {T : SizeT} {realloc : ℕ → Bool} (hp : Placed s) (hi : i < s.heap.n)
    (hc : s.cell i = some e) :
    minHeapAdjust T realloc e s =
      if 0 < i ∧ (s.ev e).evTimeout < s.key (parent i) then
        (minHeapShiftUpUnconditional i e s).map fun s' => (s', 0)
      else (minHeapShiftDown i e s).map fun s' => (s', 0) := by
  have hn := hp.n_le_int
  have hidx := hp.idx hi hc
  rw [minHeapAdjust, if_neg (by omega), goesUp_eq hidx (by omega) (hp.parent_filled hi), hidx,
    toUInt32_natCast (by omega)]
  by_cases hup : 0 < i ∧ (s.ev e).evTimeout < s.key (parent i)
  · rw [if_pos hup]
    simp only [Option.bind_eq_bind, Option.bind_some, if_pos (decide_eq_true hup)]
    cases minHeapShiftUpUnconditional i e s <;> rfl
  · rw [if_neg hup]
    simp only [Option.bind_eq_bind, Option.bind_some, decide_eq_true_eq, if_neg hup]
    cases minHeapShiftDown i e s <;> rfl

end LibeventLearn.Event2
