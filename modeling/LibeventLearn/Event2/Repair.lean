import LibeventLearn.Event2.Valid

/-!
# Erasing and adjusting a live event

`min_heap_erase_` and `min_heap_adjust_` on a valid heap.  The upward direction restores the
heap.  The downward direction makes its last store below the hole and not at it, which is
harmless only if nothing has to move; and after the upward direction `min_heap_erase_` returns
as if the event had not been in the heap, which keeps its old position.
-/

namespace LibeventLearn.Event2

open Lib

variable {E : Type} [DecidableEq E] {s s' t : Store E} {e x y : E} {i j h c n v : ℕ}

/-! ## Upwards -/

/-- The upward loop leaves every event at its position. -/
lemma Raised.placed (hr : Raised s.heap.n h x s s') (hp : Placed s) : Placed s' := by
  have hn := hp.n_le_int
  refine ⟨?_, ?_, ?_, fun e => ?_, ?_⟩
  · rw [hr.heap_n, hr.heap_a]
    exact hp.n_le
  · rw [hr.heap_a]
    exact hp.a_lt
  · rw [hr.size, hr.heap_a]
    exact hp.size
  · by_cases hl : e = x ∨ ∃ i < s.heap.n, i ≠ h ∧ s.cell i = some e
    · obtain ⟨i, hi, he⟩ := (hr.events e).2 hl
      obtain ⟨z, hz, hzi⟩ := hr.live i hi
      obtain rfl : z = e := Option.some.inj (hz.symm.trans he)
      rw [hzi]
      exact isInt32_natCast (by omega)
    · rw [hr.ev e (fun he => hl (Or.inl he)) (fun he => hl (Or.inr he))]
      exact hp.int e
  · rw [hr.heap_n]
    exact hr.live

omit [DecidableEq E] in
lemma Raised.live_iff (hr : Raised s.heap.n h x s s') :
    Live s' y ↔ y = x ∨ ∃ i < s.heap.n, i ≠ h ∧ s.cell i = some y := by
  rw [Live, hr.heap_n]
  exact hr.events y

/-! ## Downwards -/

lemma Placed.shiftDown_spec (hp : Placed s) (hi : i ≤ s.heap.n) (hlt : i < 2 ^ 31) :
    ∃ s' h, Sunk s.heap.n i h x s s' ∧
      ((s.heap.n < 2 * h + 2 ∧ minHeapShiftDown i x s = s'.put (2 * h + 2) x h) ∨
        (2 * h + 2 ≤ s.heap.n ∧ (s.ev x).evTimeout ≤ s.key (minChild s.key s.heap.n h) ∧
          minHeapShiftDown i x s = s'.put (minChild s.key s.heap.n h) x h)) :=
  minHeapShiftDown_spec hp.n_le_int hp.filled (hp.size ▸ hp.a_lt) hi hlt

/-- Where the event `x` sinks from `i` to a leaf, the cell behind that leaf is in the block. -/
def LeafFits (s : Store E) (x : E) (i : ℕ) : Prop :=
  ∀ h, SinksTo s.key s.heap.n (s.ev x).evTimeout i h → s.heap.n < 2 * h + 2 →
    2 * h + 2 < s.heap.a

/-- The downward loop stays in the array exactly then. -/
lemma shiftDown_ne_none_iff (hp : Placed s) (hi : i ≤ s.heap.n) (hlt : i < 2 ^ 31) :
    minHeapShiftDown i x s ≠ none ↔ LeafFits s x i := by
  obtain ⟨s', h, hsunk, ⟨hleaf, hend⟩ | ⟨hle, hmin, hend⟩⟩ := hp.shiftDown_spec (x := x) hi hlt
  · have hsize : s'.size = s.heap.a := hsunk.moved.size.trans hp.size
    rw [hend, put_ne_none_iff, hsize]
    constructor
    · intro hlt j hj hleafj
      obtain rfl := SinksTo.leaf_unique hj hsunk.path hleafj (not_sinks_of_leaf hleaf)
      exact hlt
    · intro hfits
      exact hfits h hsunk.path hleaf
  · have hin : minChild s.key s.heap.n h < s'.size := by
      rw [hsunk.moved.size]
      exact (minChild_lt hle).trans_le hp.filled.le_size
    rw [hend]
    refine iff_of_true (put_ne_none_iff.2 hin) fun j hj hleafj => ?_
    obtain rfl := SinksTo.leaf_unique hj hsunk.path hleafj (not_sinks_of_le hmin)
    omega

/-- From a leaf nothing sinks, and the event is stored behind it. -/
lemma shiftDown_leaf (hp : Placed s) (hi : i ≤ s.heap.n) (hlt : i < 2 ^ 31)
    (hleaf : s.heap.n < 2 * i + 2) : minHeapShiftDown i x s = s.put (2 * i + 2) x i := by
  obtain ⟨s', h, hsunk, ⟨hleafh, hend⟩ | ⟨hle, -⟩⟩ := hp.shiftDown_spec (x := x) hi hlt
  · obtain rfl : i = h :=
      SinksTo.leaf_unique .refl hsunk.path hleaf (not_sinks_of_leaf hleafh)
    rw [hend, hsunk.still rfl]
  · rcases hsunk.path.eq_or_lt with rfl | ⟨hih, -⟩
    · omega
    · omega

/-- From elsewhere, the event is stored in a live cell with the position of another one, or
behind the live cells. -/
lemma shiftDown_spoils (hp : Placed s) (hi : i ≤ s.heap.n) (hlt : i < 2 ^ 31)
    (hx : ∀ j < s.heap.n, s.cell j = some x → j = i ∧ 2 * i + 2 ≤ s.heap.n)
    (hs' : minHeapShiftDown i x s = some s') (hn : t.heap.n = s.heap.n)
    (hcell : ∀ j, t.cell j = s'.cell j) (hev : t.ev x = s'.ev x) : ¬ (Placed t ∧ Live t x) := by
  rintro ⟨hpt, j, hj, hjx⟩
  have hint := hp.n_le_int
  obtain ⟨s₁, h, hsunk, ⟨hleaf, hend⟩ | ⟨hle, hmin, hend⟩⟩ := hp.shiftDown_spec (x := x) hi hlt
  · have hgone := hsunk.cell_ne fun j hj hjx => by
      obtain ⟨hji, hi2⟩ := hx j hj hjx
      exact ⟨hji, by omega⟩
    have hput := put_of_eq_some (hend ▸ hs')
    rw [hcell, hput.cell_of_ne j (by omega)] at hjx
    exact hgone j (by omega) hjx
  · have hput := put_of_eq_some (hend ▸ hs')
    have hc := minChild_lt (k := s.key) hle
    have hlt := lt_minChild s.key s.heap.n h
    have hidx := hpt.idx (by omega) ((hcell _).trans hput.cell_self)
    rw [hev, hput.idx_self, toInt32_natCast (by omega)] at hidx
    omega

@[simp] lemma mark_heap {v : ℤ} : (s.mark e v).heap = s.heap := rfl

@[simp] lemma mark_cell {v : ℤ} : (s.mark e v).cell i = s.cell i := rfl

lemma mark_ev_self {v : ℤ} :
    (s.mark e v).ev e = { s.ev e with minHeapIdx := toInt32 v } := Function.update_self ..

lemma mark_ev_of_ne {v : ℤ} (hne : x ≠ e) : (s.mark e v).ev x = s.ev x :=
  Function.update_of_ne hne ..

/-! ## Erasing -/

/-- What `min_heap_erase_` should do to the live cells. -/
def EraseRight (e : E) (s : Store E) : Prop :=
  ∃ s' r, minHeapErase e s = some (s', r) ∧ s'.heap.n + 1 = s.heap.n ∧ Valid s' ∧
    ∀ y, Live s' y ↔ y ≠ e ∧ Live s y

/-- Upwards, the last event takes the place of the one that is erased. -/
lemma eraseRight_of_up (hv : Valid s) (hi : i < s.heap.n) (hc : s.cell i = some e)
    (h0 : 0 < i) (hup : s.key (s.heap.n - 1) < s.key (parent i)) : EraseRight e s := by
  have hp := hv.toPlaced
  have hn := hp.n_le_int
  obtain ⟨x, hx, -⟩ := hp.live (s.heap.n - 1) (by omega)
  rw [key_of_cell hx] at hup
  have hlast : i < s.heap.n - 1 := by
    by_contra hge
    obtain rfl : i = s.heap.n - 1 := by omega
    have hle := hv.order _ h0 hi
    rw [key_of_cell hx] at hle
    exact absurd hup (not_lt.2 hle)
  obtain ⟨s', hs', hr⟩ :=
    minHeapShiftUpUnconditional_spec (hp.holed_shrink hlast hx) h0 (by omega)
  have hr : Raised s.shrink.heap.n i x s.shrink s' := hr
  have hp' := hr.placed hp.shrink
  refine ⟨s', -1, ?_, ?_, ⟨hp', ?_⟩, fun y => ?_⟩
  · rw [minHeapErase_eq hp hi hc hx, if_pos ⟨h0, hup⟩, hs']
    rfl
  · rw [hr.heap_n, shrink_n]
    omega
  · rw [hr.heap_n]
    exact hr.order ((hv.order.off hi).mono (Nat.sub_le _ _)) hup
  · rw [hr.live_iff]
    constructor
    · rintro (rfl | ⟨j, hj, hne, hy⟩)
      · refine ⟨?_, _, by omega, hx⟩
        rintro rfl
        exact hlast.ne (hp.cell_injective hi (by omega) hc hx)
      · have hj' : j < s.heap.n - 1 := hj
        refine ⟨?_, j, by omega, hy⟩
        rintro rfl
        exact hne (hp.cell_injective (by omega) hi hy hc)
    · rintro ⟨hne, j, hj, hy⟩
      by_cases hjl : j = s.heap.n - 1
      · subst hjl
        exact Or.inl (Option.some.inj (hy.symm.trans hx))
      · refine Or.inr ⟨j, ?_, ?_, hy⟩
        · rw [shrink_n]
          omega
        · rintro rfl
          exact hne (Option.some.inj (hy.symm.trans hc))

/-- Downwards, the last event is lost or misplaced, unless it is the one that is erased. -/
lemma not_eraseRight_of_down (hp : Placed s) (hi : i < s.heap.n - 1) (hc : s.cell i = some e)
    (hdown : ¬ (0 < i ∧ s.key (s.heap.n - 1) < s.key (parent i))) : ¬ EraseRight e s := by
  have hn := hp.n_le_int
  obtain ⟨x, hx, -⟩ := hp.live (s.heap.n - 1) (by omega)
  rw [key_of_cell hx] at hdown
  rintro ⟨s', r, hs', hn', hv', hl'⟩
  rw [minHeapErase_eq hp (by omega) hc hx, if_neg hdown, Option.map_eq_some_iff] at hs'
  obtain ⟨s₁, hs₁, heq⟩ := hs'
  obtain ⟨rfl, -⟩ := Prod.mk.inj heq
  have hxe : x ≠ e := by
    rintro rfl
    exact hi.ne (hp.cell_injective (by omega) (by omega) hc hx)
  refine shiftDown_spoils hp.shrink hi.le (by omega) (fun j hj hjx => ?_) hs₁ ?_
    (fun j => mark_cell) (mark_ev_of_ne hxe) ⟨hv'.toPlaced, (hl' x).2 ⟨hxe, _, by omega, hx⟩⟩
  · rw [shrink_n] at hj
    exact absurd (hp.cell_injective (by omega) (by omega) hjx hx) hj.ne
  · rw [mark_heap] at hn'
    rw [mark_heap, shrink_n]
    omega

/-- The last event is erased without a move, and stored behind the leaf that it was. -/
lemma minHeapErase_last (hv : Valid s) (hi : i + 1 = s.heap.n) (hc : s.cell i = some e) :
    minHeapErase e s = (s.shrink.put (2 * i + 2) e i).map fun s' => (s'.mark e (-1), 0) := by
  have hp := hv.toPlaced
  have hn := hp.n_le_int
  have hx : s.cell (s.heap.n - 1) = some e := by
    rw [← hi]
    exact hc
  have hdown : ¬ (0 < i ∧ (s.ev e).evTimeout < s.key (parent i)) := by
    rintro ⟨h0, hlt⟩
    have hle := hv.order i h0 (by omega)
    rw [key_of_cell hc] at hle
    exact absurd hlt (not_lt.2 hle)
  have hleaf : s.shrink.heap.n < 2 * i + 2 := by
    rw [shrink_n]
    omega
  rw [minHeapErase_eq hp (by omega) hc hx, if_neg hdown,
    shiftDown_leaf hp.shrink (by rw [shrink_n]; omega) (by omega) hleaf]

/-- The last event can be erased if there is room behind the leaf that it was. -/
lemma eraseRight_last_iff (hv : Valid s) (hi : i + 1 = s.heap.n) (hc : s.cell i = some e) :
    EraseRight e s ↔ 2 * s.heap.n < s.heap.a := by
  have hp := hv.toPlaced
  have heq := minHeapErase_last hv hi hc
  constructor
  · rintro ⟨s', r, hs', -⟩
    rw [heq, Option.map_eq_some_iff] at hs'
    obtain ⟨s₁, hs₁, -⟩ := hs'
    have hlt := lt_size_of_put hs₁
    rw [shrink_size, hp.size] at hlt
    omega
  · intro hlt
    obtain ⟨s₁, hs₁, hput⟩ := exists_put (s := s.shrink) (i := 2 * i + 2) (e := e) (v := i)
      (by rw [shrink_size, hp.size]; omega)
    have hn₁ : s₁.heap.n = i := by
      rw [hput.heap_n, shrink_n]
      omega
    have hcell : ∀ j < i, s₁.cell j = s.cell j := fun j hj => hput.cell_of_ne j (by omega)
    have hev : ∀ y ≠ e, (s₁.mark e (-1)).ev y = s.ev y := fun y hne =>
      (mark_ev_of_ne hne).trans (hput.ev_of_ne hne)
    have hne : ∀ j < i, ∀ y, s.cell j = some y → y ≠ e := by
      rintro j hj y hy rfl
      exact hj.ne (hp.cell_injective (by omega) (by omega) hy hc)
    refine ⟨s₁.mark e (-1), 0, by rw [heq, hs₁]; rfl, by rw [mark_heap]; omega, ?_, fun y => ?_⟩
    · refine hv.of_prefix (by rw [mark_heap]; omega) hput.heap_a hput.size (fun y => ?_)
        (fun j hj => ?_) (fun j hj y hy => ?_)
      · rcases eq_or_ne y e with rfl | hye
        · rw [mark_ev_self]
          exact isInt32_toInt32 (-1)
        · rw [hev y hye]
          exact hp.int y
      · exact hcell j (by rw [← hn₁]; exact hj)
      · exact hev y (hne j (by rw [← hn₁]; exact hj) y hy)
    · rw [Live, mark_heap, hn₁]
      constructor
      · rintro ⟨j, hj, hy⟩
        rw [mark_cell, hcell j hj] at hy
        exact ⟨hne j hj y hy, j, by omega, hy⟩
      · rintro ⟨hye, j, hj, hy⟩
        have hji : j ≠ i := by
          rintro rfl
          exact hye (Option.some.inj (hy.symm.trans hc))
        exact ⟨j, by omega, (hcell j (by omega)).trans hy⟩

/-- **`min_heap_erase_` leaves the heap of the other events only if the last event goes
upwards, or if it is the one that is erased and there is room behind it.** -/
theorem eraseRight_iff (hv : Valid s) (hi : i < s.heap.n) (hc : s.cell i = some e) :
    EraseRight e s ↔
      (0 < i ∧ s.key (s.heap.n - 1) < s.key (parent i)) ∨
        (i + 1 = s.heap.n ∧ 2 * s.heap.n < s.heap.a) := by
  by_cases hup : 0 < i ∧ s.key (s.heap.n - 1) < s.key (parent i)
  · exact iff_of_true (eraseRight_of_up hv hi hc hup.1 hup.2) (Or.inl hup)
  · rw [or_iff_right hup]
    by_cases hlast : i + 1 = s.heap.n
    · rw [eraseRight_last_iff hv hlast hc, and_iff_right hlast]
    · refine iff_of_false ?_ fun h => hlast h.1
      exact not_eraseRight_of_down hv.toPlaced (by omega) hc hup

/-- Erasing the root of three events leaves one event in two cells. -/
theorem erase_root_duplicates :
    Valid (heapOf [1, 2, 3] 8) ∧ Live (heapOf [1, 2, 3] 8) 0 ∧
      ¬ EraseRight 0 (heapOf [1, 2, 3] 8) := by
  refine ⟨valid_heapOf (by decide), ⟨0, by decide, rfl⟩, ?_⟩
  rintro ⟨s', r, hs', hn, hv, -⟩
  have hcells : (minHeapErase 0 (heapOf [1, 2, 3] 8)).map
      (fun q => (q.1.heap.n, q.1.cell 0, q.1.cell 1)) = some (2, some 1, some 1) := by rfl
  rw [hs'] at hcells
  simp only [Option.map_some, Option.some.injEq, Prod.mk.injEq] at hcells
  obtain ⟨hn', h0, h1⟩ := hcells
  exact absurd (hv.cell_injective (by omega) (by omega) h0 h1) (by omega)

/-- An event that the last one replaces upwards is erased, and one in the other subtree is
not. -/
theorem eraseRight_iff_six :
    EraseRight 3 (heapOf [1, 10, 2, 11, 12, 3] 6) ∧
      ¬ EraseRight 2 (heapOf [1, 10, 2, 11, 12, 3] 6) := by
  have hv : Valid (heapOf [1, 10, 2, 11, 12, 3] 6) := valid_heapOf (by decide)
  rw [eraseRight_iff (i := 3) hv (by decide) rfl, eraseRight_iff (i := 2) hv (by decide) rfl]
  decide

/-! ## The result of erasing -/

/-- What `min_heap_erase_` should return, and the mark it should leave on the event. -/
def EraseMarks (e : E) (s : Store E) : Prop :=
  ∃ s' r, minHeapErase e s = some (s', r) ∧ (r = 0 ↔ Live s e) ∧
    (r = -1 ∧ s' = s ↔ ¬ Live s e) ∧ (s'.ev e).minHeapIdx = -1 ∧
    minHeapErase e s' = some (s', -1) ∧
    ∀ T realloc, minHeapAdjust T realloc e s' = minHeapPush T realloc e s'

/-- An event without a position is taken for one that is in no heap. -/
lemma minHeapAdjust_of_unmarked {T : SizeT} {realloc : ℕ → Bool}
    (h : (s.ev e).minHeapIdx = -1) : minHeapAdjust T realloc e s = minHeapPush T realloc e s :=
  if_pos h

lemma eraseMarks_of_not_live (he : (s.ev e).minHeapIdx = -1) (hl : ¬ Live s e) :
    EraseMarks e s := by
  have herase := minHeapErase_of_unmarked he
  exact ⟨s, -1, herase, iff_of_false (by omega) hl, iff_of_true ⟨rfl, rfl⟩ hl, he, herase,
    fun _ _ => minHeapAdjust_of_unmarked he⟩

/-- An event that is erased downwards is marked, if the store behind the leaf goes well. -/
lemma eraseMarks_iff_of_live (hp : Placed s) (hi : i < s.heap.n) (hc : s.cell i = some e)
    (hx : s.cell (s.heap.n - 1) = some x) :
    EraseMarks e s ↔
      ¬ (0 < i ∧ (s.ev x).evTimeout < s.key (parent i)) ∧ LeafFits s.shrink x i := by
  have hn := hp.n_le_int
  have hl : Live s e := ⟨i, hi, hc⟩
  have heq := minHeapErase_eq hp hi hc hx
  by_cases hup : 0 < i ∧ (s.ev x).evTimeout < s.key (parent i)
  · refine iff_of_false ?_ fun h => h.1 hup
    rintro ⟨s', r, hs', hr, -⟩
    rw [heq, if_pos hup, Option.map_eq_some_iff] at hs'
    obtain ⟨s₁, -, hs₁⟩ := hs'
    obtain ⟨-, rfl⟩ := Prod.mk.inj hs₁
    have hzero := hr.2 hl
    omega
  · rw [if_neg hup] at heq
    rw [and_iff_right hup, ← shiftDown_ne_none_iff hp.shrink (by rw [shrink_n]; omega) (by omega)]
    constructor
    · rintro ⟨s', r, hs', -⟩ hnone
      rw [heq, hnone] at hs'
      cases hs'
    · intro hsome
      obtain ⟨s₁, hs₁⟩ := Option.ne_none_iff_exists'.1 hsome
      have hmark : ((s₁.mark e (-1)).ev e).minHeapIdx = -1 := by
        rw [mark_ev_self]
        rfl
      refine ⟨s₁.mark e (-1), 0, by rw [heq, hs₁]; rfl, iff_of_true rfl hl,
        iff_of_false (fun h => by omega) fun h => h hl, hmark, minHeapErase_of_unmarked hmark,
        fun _ _ => minHeapAdjust_of_unmarked hmark⟩

/-- **`min_heap_erase_` reports and marks the event unless it replaces it upwards, or stores the
last event outside of the array.** -/
theorem eraseMarks_iff (hv : Valid s) (he : (s.ev e).minHeapIdx = -1 ∨ Live s e) :
    EraseMarks e s ↔
      ∀ i < s.heap.n, s.cell i = some e →
        ¬ (0 < i ∧ s.key (s.heap.n - 1) < s.key (parent i)) ∧
          ∀ h, SinksTo s.key (s.heap.n - 1) (s.key (s.heap.n - 1)) i h →
            s.heap.n - 1 < 2 * h + 2 → 2 * h + 2 < s.heap.a := by
  have hp := hv.toPlaced
  by_cases hl : Live s e
  · obtain ⟨i, hi, hc⟩ := hl
    obtain ⟨x, hx, -⟩ := hp.live (s.heap.n - 1) (by omega)
    rw [eraseMarks_iff_of_live hp hi hc hx, hp.forall_cell_iff hi hc, key_of_cell hx]
    rfl
  · exact iff_of_true (eraseMarks_of_not_live (he.resolve_right hl) hl)
      fun i hi hc => absurd ⟨i, hi, hc⟩ hl

/-- An event of another subtree than the last one is erased with the result for one that is in
no heap, and keeps its position. -/
theorem erase_keeps_mark :
    Valid (heapOf [1, 10, 2, 11, 12, 3] 8) ∧ Live (heapOf [1, 10, 2, 11, 12, 3] 8) 3 ∧
      (minHeapErase 3 (heapOf [1, 10, 2, 11, 12, 3] 8)).map
        (fun q => (q.2, (q.1.ev 3).minHeapIdx)) = some (-1, 3) ∧
      ¬ EraseMarks 3 (heapOf [1, 10, 2, 11, 12, 3] 8) := by
  have hrun : (minHeapErase 3 (heapOf [1, 10, 2, 11, 12, 3] 8)).map
      (fun q => (q.2, (q.1.ev 3).minHeapIdx)) = some (-1, 3) := by rfl
  refine ⟨valid_heapOf (by decide), ⟨3, by decide, rfl⟩, hrun, ?_⟩
  rintro ⟨s', r, hs', -, -, hmark, -⟩
  rw [hs'] at hrun
  simp only [Option.map_some, Option.some.injEq, Prod.mk.injEq] at hrun
  omega

/-- The last of three events is marked, and one that is in no heap is left alone. -/
theorem eraseMarks_iff_three :
    EraseMarks 2 (heapOf [1, 2, 3] 8) ∧ EraseMarks 7 (heapOf [1, 2, 3] 8) := by
  have hv : Valid (heapOf [1, 2, 3] 8) := valid_heapOf (by decide)
  refine ⟨(eraseMarks_iff hv (Or.inr ⟨2, by decide, rfl⟩)).2 fun i hi hc => ?_,
    (eraseMarks_iff hv (Or.inl rfl)).2 fun i hi hc => ?_⟩
  · obtain rfl := eq_of_cell_heapOf hi hc
    refine ⟨by decide, fun h hpath _ => ?_⟩
    have hn : (heapOf [1, 2, 3] 8).heap.n = 3 := rfl
    have ha : (heapOf [1, 2, 3] 8).heap.a = 8 := rfl
    rcases hpath.eq_or_lt with rfl | hlt <;> omega
  · obtain rfl := eq_of_cell_heapOf hi hc
    exact absurd hi (by decide)

/-! ## Adjusting -/

/-- What `min_heap_adjust_` should do. -/
def AdjustRight (T : SizeT) (realloc : ℕ → Bool) (e : E) (s : Store E) : Prop :=
  ∃ s', minHeapAdjust T realloc e s = some (s', 0) ∧ s'.heap.n = s.heap.n ∧ Valid s' ∧
    ∀ y, Live s' y ↔ Live s y

variable {T : SizeT} {realloc : ℕ → Bool} {u : Timeval}

/-- Upwards, the event is moved to where its new time belongs. -/
lemma adjustRight_of_up (hp : Placed s) (ho : OrderedOff s.key s.heap.n i) (hi : i < s.heap.n)
    (hc : s.cell i = some e) (h0 : 0 < i) (hup : (s.ev e).evTimeout < s.key (parent i)) :
    AdjustRight T realloc e s := by
  obtain ⟨s', hs', hr⟩ :=
    minHeapShiftUpUnconditional_spec (hp.holed hi hc) h0 hp.n_le_int
  refine ⟨s', ?_, hr.heap_n, ⟨hr.placed hp, hr.heap_n ▸ hr.order ho hup⟩, fun y => ?_⟩
  · rw [minHeapAdjust_eq hp hi hc, if_pos ⟨h0, hup⟩, hs']
    rfl
  · rw [hr.live_iff]
    constructor
    · rintro (rfl | ⟨j, hj, -, hy⟩)
      · exact ⟨i, hi, hc⟩
      · exact ⟨j, hj, hy⟩
    · rintro ⟨j, hj, hy⟩
      rcases eq_or_ne j i with rfl | hne
      · exact Or.inl (Option.some.inj (hy.symm.trans hc))
      · exact Or.inr ⟨j, hj, hne, hy⟩

/-- Downwards from a position above others, the event is lost or misplaced. -/
lemma not_adjustRight_of_down (hp : Placed s) (hi : i < s.heap.n) (hc : s.cell i = some e)
    (hle : 2 * i + 2 ≤ s.heap.n) (hdown : ¬ (0 < i ∧ (s.ev e).evTimeout < s.key (parent i))) :
    ¬ AdjustRight T realloc e s := by
  have hn := hp.n_le_int
  rintro ⟨s', hs', hn', hv', hl'⟩
  rw [minHeapAdjust_eq hp hi hc, if_neg hdown, Option.map_eq_some_iff] at hs'
  obtain ⟨s₁, hs₁, heq⟩ := hs'
  obtain ⟨rfl, -⟩ := Prod.mk.inj heq
  refine shiftDown_spoils hp hi.le (by omega) (fun j hj hjx => ⟨?_, hle⟩) hs₁ hn' (fun _ => rfl)
    rfl ⟨hv'.toPlaced, (hl' e).2 ⟨i, hi, hc⟩⟩
  exact hp.cell_injective hj hi hjx hc

/-- At a leaf the event stays, and is stored behind the leaf as well. -/
lemma adjustRight_leaf_iff (hp : Placed s) (ho : OrderedOff s.key s.heap.n i)
    (hi : i < s.heap.n) (hc : s.cell i = some e) (hleaf : s.heap.n < 2 * i + 2)
    (hdown : ¬ (0 < i ∧ (s.ev e).evTimeout < s.key (parent i))) :
    AdjustRight T realloc e s ↔ 2 * i + 2 < s.heap.a := by
  have hn := hp.n_le_int
  have heq : minHeapAdjust T realloc e s = (s.put (2 * i + 2) e i).map fun s' => (s', 0) := by
    rw [minHeapAdjust_eq hp hi hc, if_neg hdown, shiftDown_leaf hp hi.le (by omega) hleaf]
  constructor
  · rintro ⟨s', hs', -⟩
    rw [heq, Option.map_eq_some_iff] at hs'
    obtain ⟨s₁, hs₁, -⟩ := hs'
    exact hp.size ▸ lt_size_of_put hs₁
  · intro hlt
    have hv : Valid s := by
      refine ⟨hp, ho.ordered (fun h0 => ?_) fun j h0 hj hpj => ?_⟩
      · rw [key_of_cell hc, ← not_lt]
        exact fun hlt => hdown ⟨h0, hlt⟩
      · unfold parent at hpj
        omega
    obtain ⟨s', hs', hput⟩ :=
      exists_put (s := s) (i := 2 * i + 2) (e := e) (v := i) (hp.size ▸ hlt)
    have hev : s'.ev = s.ev := by
      rw [hput.ev, toInt32_natCast (by omega), ← hp.idx hi hc]
      exact Function.update_eq_self e s.ev
    have hcell : ∀ j < s'.heap.n, s'.cell j = s.cell j := by
      rw [hput.heap_n]
      exact fun j hj => hput.cell_of_ne j (by omega)
    refine ⟨s', by rw [heq, hs']; rfl, hput.heap_n, ?_, fun y => ?_⟩
    · refine hv.of_prefix hput.heap_n.le hput.heap_a hput.size (fun y => ?_) hcell
        fun _ _ _ _ => congrFun hev _
      rw [hev]
      exact hp.int y
    · rw [Live, Live]
      constructor
      · rintro ⟨j, hj, hy⟩
        exact ⟨j, hput.heap_n ▸ hj, (hcell j hj).symm.trans hy⟩
      · rintro ⟨j, hj, hy⟩
        have hj' : j < s'.heap.n := hput.heap_n ▸ hj
        exact ⟨j, hj', (hcell j hj').trans hy⟩

lemma adjustRight_setTimeout_iff (T : SizeT) (realloc : ℕ → Bool) (hv : Valid s)
    (hi : i < s.heap.n) (hc : s.cell i = some e) (u : Timeval) :
    AdjustRight T realloc e (s.setTimeout e u) ↔
      (0 < i ∧ u < s.key (parent i)) ∨ (s.heap.n ≤ 2 * i + 1 ∧ 2 * i + 2 < s.heap.a) := by
  have hp := hv.toPlaced
  have hp' := hp.setTimeout (e := e) (t := u)
  have ho : OrderedOff (s.setTimeout e u).key s.heap.n i :=
    (hv.order.off hi).congr fun j hj hne => hp.key_setTimeout hi hc hj hne
  have hself : ((s.setTimeout e u).ev e).evTimeout = u := by rw [setTimeout_ev_self]
  have hgo : 0 < i ∧ ((s.setTimeout e u).ev e).evTimeout < (s.setTimeout e u).key (parent i) ↔
      0 < i ∧ u < s.key (parent i) := by
    rw [hself]
    refine lt_parent_congr fun h0 => ?_
    have hlt := parent_lt h0
    exact hp.key_setTimeout hi hc (by omega) hlt.ne
  by_cases hup : 0 < i ∧ u < s.key (parent i)
  · exact iff_of_true (adjustRight_of_up hp' ho hi hc hup.1 (hgo.2 hup).2) (Or.inl hup)
  · rw [or_iff_right hup]
    by_cases hleaf : s.heap.n < 2 * i + 2
    · rw [adjustRight_leaf_iff hp' ho hi hc hleaf (mt hgo.1 hup), and_iff_right (by omega)]
      rfl
    · refine iff_of_false ?_ fun h => by omega
      exact not_adjustRight_of_down hp' hi hc (not_lt.1 hleaf) (mt hgo.1 hup)

/-- **`min_heap_adjust_` restores the heap only if the event goes upwards, or if it is at a leaf
with room behind it.** -/
theorem adjustRight_iff (T : SizeT) (realloc : ℕ → Bool) (hv : Valid s) (hi : i < s.heap.n)
    (hc : s.cell i = some e) (u : Timeval) :
    AdjustRight T realloc e (s.setTimeout e u) ↔
      (0 < i ∧ u < s.key (parent i)) ∨ (s.heap.n ≤ 2 * i + 1 ∧ 2 * i + 2 < s.heap.a) :=
  adjustRight_setTimeout_iff T realloc hv hi hc u

/-- Adjusting the root of three events, with the time that it had, puts it over another one. -/
theorem adjust_root_overwrites :
    Valid (heapOf [1, 2, 3] 8) ∧ Live (heapOf [1, 2, 3] 8) 0 ∧
      ¬ AdjustRight .bits64 (fun _ => true) 0 ((heapOf [1, 2, 3] 8).setTimeout 0 ⟨1, 0⟩) := by
  refine ⟨valid_heapOf (by decide), ⟨0, by decide, rfl⟩, ?_⟩
  rintro ⟨s', hs', hn, hv, -⟩
  have hcells : (minHeapAdjust .bits64 (fun _ => true) 0
      ((heapOf [1, 2, 3] 8).setTimeout 0 ⟨1, 0⟩)).map (fun q => (q.1.cell 0, q.1.cell 1)) =
        some (some 0, some 0) := by rfl
  rw [hs'] at hcells
  simp only [Option.map_some, Option.some.injEq, Prod.mk.injEq] at hcells
  have hn' : s'.heap.n = 3 := hn
  exact absurd (hv.cell_injective (by omega) (by omega) hcells.1 hcells.2) (by omega)

/-- The last of three events can be adjusted to any later time, the first one to none. -/
theorem adjustRight_iff_three :
    AdjustRight .bits64 (fun _ => true) 2 ((heapOf [1, 2, 3] 8).setTimeout 2 ⟨9, 0⟩) ∧
      ¬ AdjustRight .bits64 (fun _ => true) 0 ((heapOf [1, 2, 3] 8).setTimeout 0 ⟨0, 0⟩) := by
  have hv : Valid (heapOf [1, 2, 3] 8) := valid_heapOf (by decide)
  rw [adjustRight_iff _ _ (i := 2) hv (by decide) rfl,
    adjustRight_iff _ _ (i := 0) hv (by decide) rfl]
  decide

end LibeventLearn.Event2
