import LibeventLearn.Event2.Valid

/-!
# The two upward loops

What `min_heap_shift_up_unconditional_` and `min_heap_shift_up_` do when they are called on the
same array, hole and event.  The first one moves a parent before it tests, the second one tests
before it moves; they stop at the same hole.  But the second one stores the event at the parent
of the hole where the first one moves the parent down, so the event that was there keeps its
position in one run and gets the one below it in the other.
-/

namespace LibeventLearn.Event2

open Lib

variable {E : Type} [DecidableEq E] {s s' t : Store E} {e x y : E} {i j h n fuel : ℕ}

/-! ## The loop that moves before it tests -/

/-- **`min_heap_shift_up_unconditional_` repairs an array in which the keys below the hole are
not smaller than the one above it, and that one is greater than the event's.** -/
theorem minHeapShiftUpUnconditional_repairs (hb : Backed s n) (h0 : 0 < h) (hh : h < n)
    (hn : n < 2 ^ 31) (hx : s.cell h = some x ∨ ∀ i < n, s.cell i ≠ some x)
    (ho : OrderedOff s.key n h) (hgt : (s.ev x).evTimeout < s.key (parent h)) :
    ∃ s', minHeapShiftUpUnconditional h x s = some s' ∧ Ordered s'.key n ∧ Backed s' n ∧
      (∀ e, (∃ i < n, s'.cell i = some e) ↔ e = x ∨ ∃ i < n, i ≠ h ∧ s.cell i = some e) ∧
      (∀ e, (s'.ev e).evTimeout = (s.ev e).evTimeout) ∧
      ∀ i, i ≠ h → ¬ Above i h → s'.cell i = s.cell i := by
  obtain ⟨s', hs', hr⟩ := minHeapShiftUpUnconditional_spec (hb.holed hh hx) h0 hn.le
  exact ⟨s', hs', hr.order ho hgt, hr.live, hr.events, hr.timeout, hr.frame⟩

/-- The second of four events is given an earlier time than the first one has. -/
theorem minHeapShiftUpUnconditional_repairs_four :
    ∃ s', minHeapShiftUpUnconditional 1 1 ((heapOf [5, 6, 6, 7] 8).setTimeout 1 ⟨1, 0⟩) = some s' ∧
      Ordered s'.key 4 ∧ Backed s' 4 := by
  have hv : Valid (heapOf [5, 6, 6, 7] 8) := valid_heapOf (by decide)
  have hp := hv.toPlaced
  have hlt : 1 < (heapOf [5, 6, 6, 7] 8).heap.n := by decide
  have hb : Backed ((heapOf [5, 6, 6, 7] 8).setTimeout 1 ⟨1, 0⟩) 4 := hp.setTimeout.backed
  have ho : OrderedOff ((heapOf [5, 6, 6, 7] 8).setTimeout 1 ⟨1, 0⟩).key 4 1 :=
    (hv.order.off hlt).congr fun j hj hne => hp.key_setTimeout hlt rfl hj hne
  have hgt : (((heapOf [5, 6, 6, 7] 8).setTimeout 1 ⟨1, 0⟩).ev 1).evTimeout <
      ((heapOf [5, 6, 6, 7] 8).setTimeout 1 ⟨1, 0⟩).key (parent 1) := by decide
  obtain ⟨s', hs', ho', hb', -⟩ := minHeapShiftUpUnconditional_repairs hb (by omega) (by omega)
    (by omega) (Or.inl rfl) ho hgt
  exact ⟨s', hs', ho', hb'⟩

/-- The event above the hole is moved into it, and stays there. -/
lemma shiftUpUnconditionalLoop_first (hd : Holed s n h x) (h0 : 0 < h) (hn : n ≤ 2 ^ 31)
    (hf : h < fuel) (hloop : shiftUpUnconditionalLoop fuel h x s = some (s', j)) :
    j < h ∧ s'.cell h = s.cell (parent h) := by
  have hh := hd.hole
  have hlt := parent_lt h0
  cases fuel with
  | zero => omega
  | succ fuel =>
    obtain ⟨y, s₁, hy, hs₁, hround⟩ := shiftUpUnconditionalLoop_succ.1 hloop
    rw [parentIdx_eq h0 (by omega)] at hy hround
    have hp := put_of_eq_some hs₁
    rw [hy, ← hp.cell_self]
    rcases hround with ⟨-, heq⟩ | ⟨hgo, hloop⟩
    · obtain ⟨rfl, rfl⟩ := Prod.mk.inj heq
      exact ⟨hlt, rfl⟩
    · -- the loop goes on above, away from the cell
      obtain ⟨t, k, ht, hc⟩ := shiftUpUnconditionalLoop_spec hn fuel (hd.up h0 hn hy hp)
        (pos_of_parentGreater hgo) (by omega)
      obtain ⟨rfl, rfl⟩ := Prod.mk.inj (Option.some.inj (ht.symm.trans hloop))
      refine ⟨?_, hc.frame h hlt.ne' fun ha => absurd ha.lt (by omega)⟩
      rcases hc.above with rfl | ha
      · exact hlt
      · exact ha.lt.trans hlt

/-- So the event that was at the parent of the hole gets the position of the hole. -/
lemma minHeapShiftUpUnconditional_parent (hd : Holed s n h x) (h0 : 0 < h) (hn : n ≤ 2 ^ 31)
    (hy : s.cell (parent h) = some y) (hs' : minHeapShiftUpUnconditional h x s = some s') :
    s'.cell h = some y ∧ (s'.ev y).minHeapIdx = h := by
  have hh := hd.hole
  obtain ⟨t, ht, hr⟩ := minHeapShiftUpUnconditional_spec hd h0 hn
  obtain rfl : t = s' := Option.some.inj (ht.symm.trans hs')
  obtain ⟨s₁, j, hloop, hput⟩ := minHeapShiftUpUnconditional_eq_some.1 hs'
  obtain ⟨hj, hcell⟩ :=
    shiftUpUnconditionalLoop_first hd h0 hn (lt_loopFuel (by omega)) hloop
  have hc : t.cell h = some y := by
    rw [(put_of_eq_some hput).cell_of_ne h hj.ne', hcell, hy]
  obtain ⟨z, hz, hzh⟩ := hr.live h hh
  obtain rfl : z = y := Option.some.inj (hz.symm.trans hc)
  exact ⟨hc, hzh⟩

/-! ## The two loops side by side -/

/-- Above the hole the two stores hold the same events, with the same times. -/
structure Sync (h : ℕ) (s t : Store E) : Prop where
  filled : ∀ i, Above i h → ∃ y, s.cell i = some y ∧ t.cell i = some y
  timeout : ∀ e, (s.ev e).evTimeout = (t.ev e).evTimeout
  size : s.size = t.size

namespace Sync

omit [DecidableEq E] in
/-- Both loops test the same. -/
lemma exists_parentGreater (hs : Sync h s t) (hh : h < 2 ^ 32) :
    ∃ b, parentGreater h x s = some b ∧ parentGreater h x t = some b := by
  rcases Nat.eq_zero_or_pos h with rfl | h0
  · exact ⟨false, rfl, rfl⟩
  · obtain ⟨y, hy, hy'⟩ := hs.filled (parent h) (.parent h0)
    refine ⟨_, parentGreater_of_cell h0 hh hy, ?_⟩
    rw [parentGreater_of_cell h0 hh hy', key_of_cell hy, key_of_cell hy', hs.timeout, hs.timeout]

/-- The one stores at the parent and the other at the hole, which is not above the parent. -/
lemma up (hs : Sync h s t) (h0 : 0 < h) {s₁ t₁ : Store E} (hp : Put (parent h) x h s s₁)
    (hq : Put h y h t t₁) : Sync (parent h) s₁ t₁ := by
  have hlt := parent_lt h0
  refine ⟨fun i hi => ?_, fun e => ?_, ?_⟩
  · obtain ⟨z, hz, hz'⟩ := hs.filled i (.step h0 hi)
    have hil := hi.lt
    exact ⟨z, (hp.cell_of_ne i (by omega)).trans hz, (hq.cell_of_ne i (by omega)).trans hz'⟩
  · rw [hp.timeout, hq.timeout, hs.timeout]
  · rw [hp.size, hq.size, hs.size]

end Sync

/-- From a hole that the event goes up from, both loops get to the same hole. -/
lemma shiftUpLoops_sync (f : ℕ) :
    ∀ {fuel h : ℕ} {s t : Store E}, Sync h s t → 0 < h → h < 2 ^ 32 → h < s.size → h < fuel →
      h < f → parentGreater h x s = some true →
      ∃ s' t' j, shiftUpLoop fuel h x s = some (s', j) ∧
        shiftUpUnconditionalLoop f h x t = some (t', j) := by
  induction f with
  | zero => intro fuel h s t _ _ _ _ _ hf; omega
  | succ f ih =>
    intro fuel h s t hs h0 hh hsize hfuel hf hgo
    have hlt := parent_lt h0
    obtain ⟨g, rfl⟩ : ∃ g, fuel = g + 2 := ⟨fuel - 2, by omega⟩
    obtain ⟨y, -, hy⟩ := hs.filled (parent h) (.parent h0)
    obtain ⟨s₁, hs₁, hp⟩ := exists_put (s := s) (i := parent h) (e := x) (v := h) (by omega)
    obtain ⟨t₁, ht₁, hq⟩ := exists_put (s := t) (i := h) (e := y) (v := h) (hs.size ▸ hsize)
    have hs' := hs.up h0 hp hq
    obtain ⟨again, hagain, hagain'⟩ := hs'.exists_parentGreater (x := x) (by omega)
    have hsize₁ : parent h < s₁.size := by
      rw [hp.size]
      omega
    rw [← parentIdx_eq h0 hh] at hy hs₁ hs' hagain hagain' hlt hsize₁
    cases again with
    | true =>
      obtain ⟨s', t', j, hs', ht'⟩ := ih hs' (pos_of_parentGreater hagain) (by omega) hsize₁
        (by omega : _ < g + 1) (by omega) hagain
      exact ⟨s', t', j, shiftUpLoop_succ.2 (Or.inr ⟨hgo, s₁, hs₁, hs'⟩),
        shiftUpUnconditionalLoop_succ.2 ⟨y, t₁, hy, ht₁, Or.inr ⟨hagain', ht'⟩⟩⟩
    | false =>
      have hstop : shiftUpLoop (g + 1) (parentIdx h) x s₁ = some (s₁, parentIdx h) :=
        shiftUpLoop_succ.2 (Or.inl ⟨hagain, rfl⟩)
      exact ⟨s₁, t₁, parentIdx h, shiftUpLoop_succ.2 (Or.inr ⟨hgo, s₁, hs₁, hstop⟩),
        shiftUpUnconditionalLoop_succ.2 ⟨y, t₁, hy, ht₁, Or.inl ⟨hagain', rfl⟩⟩⟩

/-- **Both loops stop at the same hole.** -/
theorem shiftUps_same_hole (hb : Backed s n) (h0 : 0 < h) (hh : h ≤ n) (hn : n < 2 ^ 31)
    (hsize : h < s.size) (hgt : (s.ev x).evTimeout < s.key (parent h)) :
    ∃ s₁ s₂ j, shiftUpLoop loopFuel h x s = some (s₁, j) ∧
      shiftUpUnconditionalLoop loopFuel h x s = some (s₂, j) := by
  have hlt := parent_lt h0
  have hfill : ∀ i, Above i h → ∃ y, s.cell i = some y ∧ s.cell i = some y := by
    intro i hi
    obtain ⟨y, hy⟩ := hb.filled i (hi.lt.trans_le hh)
    exact ⟨y, hy, hy⟩
  have hgreater := parentGreater_eq (x := x) (by omega : h < 2 ^ 32) fun h0 =>
    hb.filled (parent h) (hlt.trans_le hh)
  refine shiftUpLoops_sync loopFuel ⟨hfill, fun _ => rfl, rfl⟩ h0 (by omega) hsize
    (lt_loopFuel (by omega)) (lt_loopFuel (by omega)) ?_
  rw [hgreater, decide_eq_true ⟨h0, hgt⟩]

/-! ## What they leave behind -/

/-- The two loops leave the same array, and every event with the same position. -/
def ShiftUpsAgree (h : ℕ) (e : E) (s : Store E) : Prop :=
  ∃ s₁ s₂, minHeapShiftUp h e s = some s₁ ∧ minHeapShiftUpUnconditional h e s = some s₂ ∧
    (∀ i, s₁.cell i = s₂.cell i) ∧ ∀ f, (s₁.ev f).minHeapIdx = (s₂.ev f).minHeapIdx

/-- They do give the event that goes up the same position. -/
theorem shiftUps_idx_self (hb : Backed s n) (h0 : 0 < h) (hh : h ≤ n) (hn : n < 2 ^ 31)
    (hsize : h < s.size) (hgt : (s.ev x).evTimeout < s.key (parent h)) {s₁ s₂ : Store E}
    (h₁ : minHeapShiftUp h x s = some s₁) (h₂ : minHeapShiftUpUnconditional h x s = some s₂) :
    (s₁.ev x).minHeapIdx = (s₂.ev x).minHeapIdx := by
  obtain ⟨t₁, t₂, k, ht₁, ht₂⟩ := shiftUps_same_hole hb h0 hh hn hsize hgt
  obtain ⟨_, j₁, hloop₁, hput₁⟩ := minHeapShiftUp_eq_some.1 h₁
  obtain ⟨_, j₂, hloop₂, hput₂⟩ := minHeapShiftUpUnconditional_eq_some.1 h₂
  obtain ⟨rfl, rfl⟩ := Prod.mk.inj (Option.some.inj (ht₁.symm.trans hloop₁))
  obtain ⟨rfl, rfl⟩ := Prod.mk.inj (Option.some.inj (ht₂.symm.trans hloop₂))
  rw [(put_of_eq_some hput₁).idx_self, (put_of_eq_some hput₂).idx_self]

/-- **The two loops never agree.**  The event at the parent of the hole is moved down by the one
loop only; neither the order of the array nor the time of the event matters for that. -/
theorem not_shiftUpsAgree (hb : Backed s n) (h0 : 0 < h) (hh : h ≤ n) (hn : n < 2 ^ 31)
    (hsize : h < s.size) (hx : ∀ i < n, s.cell i ≠ some x) : ¬ ShiftUpsAgree h x s := by
  rintro ⟨s₁, s₂, hs₁, hs₂, -, hidx⟩
  have hlt := parent_lt h0
  obtain ⟨y, hy, hyi⟩ := hb (parent h) (by omega)
  have hyx : y ≠ x := by
    rintro rfl
    exact hx (parent h) (by omega) hy
  obtain ⟨-, hmoved⟩ := minHeapShiftUpUnconditional_parent (hb.holed_of_le hh hsize hx) h0
    (by omega) hy hs₂
  have hkept : (s₁.ev y).minHeapIdx = parent h := by
    rw [(copied_of_minHeapShiftUp hs₁).ev y hyx, hyi]
  have heq : (parent h : ℤ) = h := hkept.symm.trans ((hidx y).trans hmoved)
  omega

/-- Of three events that are live, a fourth one goes up over the second and stops below the
first; `min_heap_shift_up_` stores it over both. -/
theorem shiftUps_disagree :
    Valid (heapOf [0, 5, 6] 8) ∧ (∀ i < 3, (heapOf [0, 5, 6] 8).cell i ≠ some 3) ∧
      ((heapOf [0, 5, 6] 8).ev 3).evTimeout < (heapOf [0, 5, 6] 8).key (parent 3) ∧
      (minHeapShiftUp 3 3 (heapOf [0, 5, 6] 8)).map (·.cell 0) = some (some 3) ∧
      (minHeapShiftUpUnconditional 3 3 (heapOf [0, 5, 6] 8)).map (·.cell 0) = some (some 0) ∧
      ¬ ShiftUpsAgree 3 3 (heapOf [0, 5, 6] 8) := by
  have hc₁ : (minHeapShiftUp 3 3 (heapOf [0, 5, 6] 8)).map (·.cell 0) = some (some 3) := by rfl
  have hc₂ : (minHeapShiftUpUnconditional 3 3 (heapOf [0, 5, 6] 8)).map (·.cell 0) =
      some (some 0) := by rfl
  refine ⟨valid_heapOf (by decide), by decide, by decide, hc₁, hc₂, ?_⟩
  rintro ⟨s₁, s₂, hs₁, hs₂, hcell, -⟩
  rw [hs₁] at hc₁
  rw [hs₂] at hc₂
  have heq := (Option.some.inj hc₁).symm.trans ((hcell 0).trans (Option.some.inj hc₂))
  exact absurd (Option.some.inj heq) (by omega)

/-- An event behind the only one. -/
theorem not_shiftUpsAgree_two : ¬ ShiftUpsAgree 1 1 (heapOf [2] 8) := by
  have hv : Valid (heapOf [2] 8) := valid_heapOf (by decide)
  have hb : Backed (heapOf [2] 8) 1 := hv.toPlaced.backed
  exact not_shiftUpsAgree hb (by omega) (le_refl 1) (by omega) (by decide) (by decide)

end LibeventLearn.Event2
