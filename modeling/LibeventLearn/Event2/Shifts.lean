import LibeventLearn.Event2.MinHeap
import LibeventLearn.Lib.HeapOrder

/-!
# The loops that move the hole

What the three loops of the heap do to the cells of the array, the keys in them and the
positions that the events keep.  The first part says what one round of a loop does, and what a
store to a cell changes; the second follows the hole of `min_heap_shift_up_unconditional_` to
where the event is put, and the third that of `min_heap_shift_down_`, whose last store is not at
the hole.
-/

namespace LibeventLearn.Event2

open Lib

variable {E : Type}

/-! ## Cells and keys -/

/-- The number of cells of the block. -/
def Store.size (s : Store E) : ℕ := (s.heap.p.getD []).length

/-- The `ev_timeout` of the event in a cell. -/
def Store.key (s : Store E) (i : ℕ) : Timeval :=
  ((s.cell i).map fun e => (s.ev e).evTimeout).getD ⟨0, 0⟩

variable {s s' t : Store E} {e x y : E} {i j h n v : ℕ}

lemma key_of_cell (hc : s.cell i = some e) : s.key i = (s.ev e).evTimeout := by
  rw [Store.key, hc]
  rfl

lemma cell_of_block {p : List (Option E)} (hp : s.heap.p = some p) :
    s.cell i = p[i]?.getD none := by
  rw [Store.cell, hp]
  show p[i]?.bind id = _
  cases p[i]? <;> rfl

/-- A cell outside of the block cannot be read. -/
lemma cell_of_size_le (hi : s.size ≤ i) : s.cell i = none := by
  cases hp : s.heap.p with
  | none => rw [Store.cell, hp]; rfl
  | some p =>
    replace hi : p.length ≤ i := by simpa [Store.size, hp] using hi
    rw [cell_of_block hp, List.getElem?_eq_none hi]
    rfl

/-- Every cell below `n` can be read. -/
def Filled (s : Store E) (n : ℕ) : Prop := ∀ i < n, ∃ e, s.cell i = some e

lemma Filled.le_size (hf : Filled s n) : n ≤ s.size := by
  by_contra hlt
  obtain ⟨e, he⟩ := hf s.size (by omega)
  rw [cell_of_size_le (le_refl _)] at he
  cases he

/-! ## Indices -/

lemma parentIdx_eq (h0 : 0 < h) (hh : h < 2 ^ 32) : parentIdx h = parent h := by
  unfold parentIdx parent toUInt32
  omega

/-- The parent of the root is computed by wrapping around. -/
lemma parentIdx_zero : parentIdx 0 = 2 ^ 31 - 1 := rfl

lemma childIdx_eq (hh : h < 2 ^ 31 - 1) : childIdx h = 2 * h + 2 := by
  unfold childIdx toUInt32
  omega

/-- The loops never run out of fuel. -/
lemma lt_loopFuel (hn : n < 2 ^ 32) : n < loopFuel := hn

lemma parentGreater_zero : parentGreater 0 x s = some false := rfl

lemma parentGreater_of_cell (h0 : 0 < h) (hh : h < 2 ^ 32) (hc : s.cell (parent h) = some y) :
    parentGreater h x s = some (decide ((s.ev x).evTimeout < s.key (parent h))) := by
  rw [parentGreater, if_neg (by omega), parentIdx_eq h0 hh, hc, key_of_cell hc]
  refine congrArg some ?_
  rw [Bool.eq_iff_iff, minHeapElemGreater_iff, decide_eq_true_iff]

lemma pos_of_parentGreater (hgo : parentGreater h x s = some true) : 0 < h := by
  by_contra h0
  rw [parentGreater, if_pos (by omega)] at hgo
  cases hgo

/-- The test of the upward loops, where there is a parent to compare with. -/
lemma parentGreater_eq (hh : h < 2 ^ 32) (hfill : 0 < h → ∃ y, s.cell (parent h) = some y) :
    parentGreater h x s = some (decide (0 < h ∧ (s.ev x).evTimeout < s.key (parent h))) := by
  rcases Nat.eq_zero_or_pos h with rfl | h0
  · rw [parentGreater_zero, decide_eq_false fun hpos => absurd hpos.1 (lt_irrefl 0)]
  · obtain ⟨y, hy⟩ := hfill h0
    simp only [parentGreater_of_cell h0 hh hy, h0, true_and]

variable [DecidableEq E]

/-! ## One round of a loop -/

section Round

variable {fuel : ℕ}

/-- The loop of `min_heap_shift_up_unconditional_` moves the parent, and then tests. -/
lemma shiftUpUnconditionalLoop_succ {r : Store E × ℕ} :
    shiftUpUnconditionalLoop (fuel + 1) h x s = some r ↔
      ∃ y s₁, s.cell (parentIdx h) = some y ∧ s.put h y h = some s₁ ∧
        (parentGreater (parentIdx h) x s₁ = some false ∧ (s₁, parentIdx h) = r ∨
          parentGreater (parentIdx h) x s₁ = some true ∧
            shiftUpUnconditionalLoop fuel (parentIdx h) x s₁ = some r) := by
  rw [shiftUpUnconditionalLoop]
  simp only [Option.bind_eq_bind, Option.bind_eq_some_iff]
  constructor
  · rintro ⟨y, hy, s₁, hs₁, again, hgo, hr⟩
    refine ⟨y, s₁, hy, hs₁, ?_⟩
    cases again with
    | false => exact Or.inl ⟨hgo, Option.some.inj hr⟩
    | true => exact Or.inr ⟨hgo, hr⟩
  · rintro ⟨y, s₁, hy, hs₁, ⟨hgo, rfl⟩ | ⟨hgo, hr⟩⟩
    · exact ⟨y, hy, s₁, hs₁, false, hgo, rfl⟩
    · exact ⟨y, hy, s₁, hs₁, true, hgo, hr⟩

/-- The loop of `min_heap_shift_up_` tests, and then stores at the parent. -/
lemma shiftUpLoop_succ {r : Store E × ℕ} :
    shiftUpLoop (fuel + 1) h x s = some r ↔
      parentGreater h x s = some false ∧ (s, h) = r ∨
        parentGreater h x s = some true ∧ ∃ s₁, s.put (parentIdx h) x h = some s₁ ∧
          shiftUpLoop fuel (parentIdx h) x s₁ = some r := by
  rw [shiftUpLoop]
  simp only [Option.bind_eq_bind, Option.bind_eq_some_iff]
  constructor
  · rintro ⟨again, hgo, hr⟩
    cases again with
    | false => exact Or.inl ⟨hgo, Option.some.inj hr⟩
    | true => exact Or.inr ⟨hgo, Option.bind_eq_some_iff.1 hr⟩
  · rintro (⟨hgo, rfl⟩ | ⟨hgo, hr⟩)
    · exact ⟨false, hgo, rfl⟩
    · exact ⟨true, hgo, Option.bind_eq_some_iff.2 hr⟩

/-- The loop of `min_heap_shift_down_` stops behind the live cells or above a child that is not
smaller, and otherwise moves the smaller child. -/
lemma shiftDownLoop_succ {d : ℕ} {r : Store E × ℕ × ℕ} :
    shiftDownLoop (fuel + 1) h d x s = some r ↔
      s.heap.n < d ∧ (s, h, d) = r ∨
        d ≤ s.heap.n ∧ ∃ c y, chooseChild d s = some c ∧ s.cell c = some y ∧
          (minHeapElemGreater x y s = false ∧ (s, h, c) = r ∨
            minHeapElemGreater x y s = true ∧ ∃ s₁, s.put h y h = some s₁ ∧
              shiftDownLoop fuel c (childIdx c) x s₁ = some r) := by
  rw [shiftDownLoop]
  rcases Nat.lt_or_ge s.heap.n d with hlt | hle
  · rw [if_neg (not_le.2 hlt)]
    constructor
    · intro hr
      exact Or.inl ⟨hlt, Option.some.inj hr⟩
    · rintro (⟨-, rfl⟩ | ⟨hle, -⟩)
      · rfl
      · omega
  · rw [if_pos hle]
    simp only [Option.bind_eq_bind, Option.bind_eq_some_iff]
    constructor
    · rintro ⟨c, hc, y, hy, hr⟩
      refine Or.inr ⟨hle, c, y, hc, hy, ?_⟩
      cases hgo : minHeapElemGreater x y s with
      | false => exact Or.inl ⟨rfl, Option.some.inj ((if_neg (by simp [hgo])).symm.trans hr)⟩
      | true => exact Or.inr ⟨rfl, Option.bind_eq_some_iff.1 ((if_pos hgo).symm.trans hr)⟩
    · rintro (⟨hlt, -⟩ | ⟨-, c, y, hc, hy, ⟨hgo, rfl⟩ | ⟨hgo, hr⟩⟩)
      · omega
      · exact ⟨c, hc, y, hy, if_neg (by simp [hgo])⟩
      · exact ⟨c, hc, y, hy, (if_pos hgo).trans (Option.bind_eq_some_iff.2 hr)⟩

/-! Each function is its loop, and a last store. -/

lemma minHeapShiftUpUnconditional_eq_some :
    minHeapShiftUpUnconditional h x s = some t ↔
      ∃ s' j, shiftUpUnconditionalLoop loopFuel h x s = some (s', j) ∧ s'.put j x j = some t := by
  rw [minHeapShiftUpUnconditional]
  simp only [Option.bind_eq_bind, Option.bind_eq_some_iff, Prod.exists]

lemma minHeapShiftUp_eq_some :
    minHeapShiftUp h x s = some t ↔
      ∃ s' j, shiftUpLoop loopFuel h x s = some (s', j) ∧ s'.put (parentIdx j) x j = some t := by
  rw [minHeapShiftUp]
  simp only [Option.bind_eq_bind, Option.bind_eq_some_iff, Prod.exists]

lemma minHeapShiftDown_eq_some :
    minHeapShiftDown h x s = some t ↔
      ∃ s' j c, shiftDownLoop loopFuel h (childIdx h) x s = some (s', j, c) ∧
        s'.put c x j = some t := by
  rw [minHeapShiftDown]
  simp only [Option.bind_eq_bind, Option.bind_eq_some_iff, Prod.exists]

end Round

/-! ## A store -/

/-- What `(s->p[i] = e)->ev_timeout_pos.min_heap_idx = v` changes. -/
structure Put (i : ℕ) (e : E) (v : ℕ) (s s' : Store E) : Prop where
  heap_n : s'.heap.n = s.heap.n
  heap_a : s'.heap.a = s.heap.a
  size : s'.size = s.size
  cell_self : s'.cell i = some e
  cell_of_ne : ∀ j ≠ i, s'.cell j = s.cell j
  ev : s'.ev = Function.update s.ev e { s.ev e with minHeapIdx := toInt32 v }

lemma put_none (hi : s.size ≤ i) : s.put i e v = none := by
  cases hp : s.heap.p with
  | none => rw [Store.put, hp]; rfl
  | some p =>
    rw [Store.size, hp] at hi
    exact put_of_le hp hi

lemma exists_put (hi : i < s.size) : ∃ s', s.put i e v = some s' ∧ Put i e v s s' := by
  cases hp : s.heap.p with
  | none => simp [Store.size, hp] at hi
  | some p =>
    replace hi : i < p.length := by simpa [Store.size, hp] using hi
    refine ⟨({ s with heap := { s.heap with p := some (p.set i (some e)) } } : Store E).mark e v,
      ?_, rfl, rfl, ?_, ?_, fun j hj => ?_, rfl⟩
    · rw [Store.put, hp]
      exact if_pos hi
    · simp [Store.size, Store.mark, hp]
    · rw [cell_of_block rfl, List.getElem?_set_self hi]
      rfl
    · rw [cell_of_block rfl, cell_of_block hp, List.getElem?_set_ne (Ne.symm hj)]

/-- A store goes well exactly if it is in the block. -/
lemma put_ne_none_iff : s.put i e v ≠ none ↔ i < s.size := by
  rcases lt_or_ge i s.size with hi | hi
  · obtain ⟨t, ht, -⟩ := exists_put (e := e) (v := v) hi
    rw [ht]
    exact iff_of_true (Option.some_ne_none t) hi
  · exact iff_of_false (not_not.2 (put_none hi)) (not_lt.2 hi)

lemma lt_size_of_put (hs : s.put i e v = some s') : i < s.size :=
  put_ne_none_iff.1 (hs ▸ Option.some_ne_none s')

/-- A store that goes well. -/
lemma put_of_eq_some (hs : s.put i e v = some s') : Put i e v s s' := by
  obtain ⟨t, ht, hp⟩ := exists_put (e := e) (v := v) (lt_size_of_put hs)
  obtain rfl : t = s' := Option.some.inj (ht.symm.trans hs)
  exact hp

namespace Put

lemma timeout (hp : Put i e v s s') (f : E) :
    (s'.ev f).evTimeout = (s.ev f).evTimeout := by
  rw [hp.ev]
  rcases eq_or_ne f e with rfl | hne
  · rw [Function.update_self]
  · rw [Function.update_of_ne hne]

lemma idx_self (hp : Put i e v s s') : (s'.ev e).minHeapIdx = toInt32 v := by
  rw [hp.ev, Function.update_self]

lemma ev_of_ne (hp : Put i e v s s') {f : E} (hne : f ≠ e) : s'.ev f = s.ev f := by
  rw [hp.ev, Function.update_of_ne hne]

lemma filled (hp : Put i e v s s') (hf : Filled s n) : Filled s' n := by
  intro j hj
  rcases eq_or_ne j i with rfl | hne
  · exact ⟨e, hp.cell_self⟩
  · rw [hp.cell_of_ne j hne]
    exact hf j hj

lemma key (hp : Put i e v s s') : s'.key = Function.update s.key i (s.ev e).evTimeout := by
  funext j
  rcases eq_or_ne j i with rfl | hne
  · rw [Function.update_self, key_of_cell hp.cell_self, hp.timeout]
  · rw [Function.update_of_ne hne, Store.key, Store.key, hp.cell_of_ne j hne]
    simp only [hp.timeout]

end Put

/-! ## The hole -/

/-- The hole has moved from `h` to `j`: off the hole, the cells below `n` hold the same events
as before. -/
structure Moved (n h j : ℕ) (s s' : Store E) : Prop where
  heap_n : s'.heap.n = s.heap.n
  heap_a : s'.heap.a = s.heap.a
  size : s'.size = s.size
  timeout : ∀ e, (s'.ev e).evTimeout = (s.ev e).evTimeout
  others : ∀ e, (∃ i < n, i ≠ j ∧ s'.cell i = some e) ↔ ∃ i < n, i ≠ h ∧ s.cell i = some e
  ev : ∀ e, (¬ ∃ i < n, i ≠ h ∧ s.cell i = some e) → s'.ev e = s.ev e

omit [DecidableEq E] in
lemma Moved.refl (n h : ℕ) (s : Store E) : Moved n h h s s :=
  ⟨rfl, rfl, rfl, fun _ => rfl, fun _ => Iff.rfl, fun _ _ => rfl⟩

omit [DecidableEq E] in
lemma Moved.trans (hm : Moved n h j s s') (hm' : Moved n j i s' t) : Moved n h i s t :=
  ⟨hm'.heap_n.trans hm.heap_n, hm'.heap_a.trans hm.heap_a, hm'.size.trans hm.size,
    fun e => (hm'.timeout e).trans (hm.timeout e), fun e => (hm'.others e).trans (hm.others e),
    fun e he => (hm'.ev e (fun he' => he ((hm.others e).1 he'))).trans (hm.ev e he)⟩

/-- The event at `j` is moved into the hole at `h`. -/
lemma Put.moved (hp : Put h y h s s') (hc : s.cell j = some y) (hj : j < n) (hh : h < n)
    (hne : j ≠ h) : Moved n h j s s' := by
  refine ⟨hp.heap_n, hp.heap_a, hp.size, hp.timeout, fun e => ⟨?_, ?_⟩, fun e he => ?_⟩
  · rintro ⟨i, hi, hij, he⟩
    rcases eq_or_ne i h with rfl | hih
    · rw [hp.cell_self] at he
      exact ⟨j, hj, hne, hc.trans he⟩
    · rw [hp.cell_of_ne i hih] at he
      exact ⟨i, hi, hih, he⟩
  · rintro ⟨i, hi, hih, he⟩
    rcases eq_or_ne i j with rfl | hij
    · exact ⟨h, hh, Ne.symm hne, hp.cell_self.trans (hc.symm.trans he)⟩
    · exact ⟨i, hi, hij, (hp.cell_of_ne i hih).trans he⟩
  · refine hp.ev_of_ne ?_
    rintro rfl
    exact he ⟨j, hj, hne, hc⟩

/-! ## The hole of `min_heap_shift_up_unconditional_` -/

/-- A heap of `n` cells with a hole at `h`, and the event `x` to go somewhere into it. -/
structure Holed (s : Store E) (n h : ℕ) (x : E) : Prop where
  hole : h < n
  le_size : n ≤ s.size
  live : ∀ i < n, i ≠ h → ∃ e ≠ x, s.cell i = some e ∧ (s.ev e).minHeapIdx = i

omit [DecidableEq E] in
lemma Holed.parent_cell (hd : Holed s n h x) (h0 : 0 < h) :
    ∃ y ≠ x, s.cell (parent h) = some y := by
  have hlt := parent_lt h0
  obtain ⟨y, hyx, hy, -⟩ := hd.live (parent h) (hlt.trans hd.hole) hlt.ne
  exact ⟨y, hyx, hy⟩

/-- The hole moves to the parent. -/
lemma Holed.up (hd : Holed s n h x) (h0 : 0 < h) (hn : n ≤ 2 ^ 31)
    (hc : s.cell (parent h) = some y) (hp : Put h y h s s') : Holed s' n (parent h) x := by
  have hlt := parent_lt h0
  have hh := hd.hole
  refine ⟨by omega, by rw [hp.size]; exact hd.le_size, fun i hi hne => ?_⟩
  obtain ⟨z, hzx, hz, hzi⟩ := hd.live (parent h) (by omega) hlt.ne
  obtain rfl : z = y := Option.some.inj (hz.symm.trans hc)
  rcases eq_or_ne i h with rfl | hih
  · exact ⟨z, hzx, hp.cell_self, hp.idx_self.trans (toInt32_natCast (by omega))⟩
  · obtain ⟨e, hex, he, hei⟩ := hd.live i hi hih
    refine ⟨e, hex, (hp.cell_of_ne i hih).trans he, ?_⟩
    -- another position is another event
    have hez : e ≠ z := by
      rintro rfl
      rw [hei] at hzi
      omega
    rw [hp.ev_of_ne hez, hei]

/-- The event is put into the hole. -/
lemma Holed.fill (hd : Holed s n h x) (hn : n ≤ 2 ^ 31) (hp : Put h x h s s') :
    ∀ i < n, ∃ e, s'.cell i = some e ∧ (s'.ev e).minHeapIdx = i := by
  intro i hi
  rcases eq_or_ne i h with rfl | hih
  · exact ⟨x, hp.cell_self, hp.idx_self.trans (toInt32_natCast (by omega))⟩
  · obtain ⟨e, hex, he, hei⟩ := hd.live i hi hih
    exact ⟨e, (hp.cell_of_ne i hih).trans he, by rw [hp.ev_of_ne hex, hei]⟩

/-- The hole has climbed from `h` to `j`, where `x` can be put. -/
structure Climbed (n h j : ℕ) (x : E) (s s' : Store E) : Prop where
  holed : Holed s' n j x
  moved : Moved n h j s s'
  frame : ∀ i, i ≠ h → ¬ Above i h → s'.cell i = s.cell i
  above : j = h ∨ Above j h
  stop : 0 < j → s'.key (parent j) ≤ (s'.ev x).evTimeout
  order : OrderedOff s.key n h → (s.ev x).evTimeout < s.key (parent h) →
    OrderedOff s'.key n j ∧
      ∀ i, 0 < i → i < n → parent i = j → (s'.ev x).evTimeout ≤ s'.key i

lemma shiftUpUnconditionalLoop_spec (hn : n ≤ 2 ^ 31) (fuel : ℕ) :
    ∀ {s : Store E} {h : ℕ}, Holed s n h x → 0 < h → h < fuel →
      ∃ s' j, shiftUpUnconditionalLoop fuel h x s = some (s', j) ∧ Climbed n h j x s s' := by
  induction fuel with
  | zero => intro s h _ _ hf; omega
  | succ fuel ih =>
    intro s h hd h0 hf
    have hlt := parent_lt h0
    have hh := hd.hole
    obtain ⟨y, -, hy⟩ := hd.parent_cell h0
    obtain ⟨s₁, hs₁, hp⟩ := exists_put (e := y) (v := h) (hh.trans_le hd.le_size)
    have hd₁ := hd.up h0 hn hy hp
    have hm₁ := hp.moved hy (by omega) hh hlt.ne
    have hframe₁ : ∀ i, i ≠ h → s₁.cell i = s.cell i := hp.cell_of_ne
    have hkey : s₁.key = Function.update s.key h (s.key (parent h)) := by
      rw [hp.key, key_of_cell hy]
    have horder₁ : OrderedOff s.key n h → (s.ev x).evTimeout < s.key (parent h) →
        OrderedOff s₁.key n (parent h) ∧
          ∀ i, 0 < i → i < n → parent i = parent h → (s₁.ev x).evTimeout ≤ s₁.key i := by
      intro ho hv
      rw [hkey, hp.timeout]
      exact ⟨ho.up h0 hh, fun i hi0 hi hpi => ho.below_up h0 hv hi0 hi hpi⟩
    have hgreater := parentGreater_eq (x := x) (by omega : parent h < 2 ^ 32) fun hpos => by
      obtain ⟨z, -, hz⟩ := hd₁.parent_cell hpos
      exact ⟨z, hz⟩
    rw [← parentIdx_eq h0 (by omega)] at hy
    by_cases hgo : 0 < parent h ∧ (s₁.ev x).evTimeout < s₁.key (parent (parent h))
    · obtain ⟨s', j, hloop, hcl⟩ := ih hd₁ hgo.1 (by omega)
      refine ⟨s', j, ?_, hcl.holed, hm₁.trans hcl.moved, fun i hi ha => ?_, ?_, hcl.stop, ?_⟩
      · refine shiftUpUnconditionalLoop_succ.2 ⟨y, s₁, hy, hs₁, Or.inr ?_⟩
        rw [parentIdx_eq h0 (by omega), hgreater, decide_eq_true hgo]
        exact ⟨rfl, hloop⟩
      · rw [hcl.frame i (fun he => ha (he ▸ .parent h0)) (fun he => ha (.step h0 he)),
          hframe₁ i hi]
      · rcases hcl.above with rfl | ha
        · exact Or.inr (.parent h0)
        · exact Or.inr (.step h0 ha)
      · intro ho hv
        exact hcl.order (horder₁ ho hv).1 hgo.2
    · refine ⟨s₁, parent h, ?_, hd₁, hm₁, fun i hi _ => hframe₁ i hi, Or.inr (.parent h0),
        fun hpos => not_lt.1 fun hlt => hgo ⟨hpos, hlt⟩, horder₁⟩
      refine shiftUpUnconditionalLoop_succ.2 ⟨y, s₁, hy, hs₁, Or.inl ?_⟩
      rw [parentIdx_eq h0 (by omega), hgreater, decide_eq_false hgo]
      exact ⟨rfl, rfl⟩

/-- What `min_heap_shift_up_unconditional_` does to the heap of `n` cells: the event that was in
the cell `h` is replaced by `x`. -/
structure Raised (n h : ℕ) (x : E) (s s' : Store E) : Prop where
  heap_n : s'.heap.n = s.heap.n
  heap_a : s'.heap.a = s.heap.a
  size : s'.size = s.size
  timeout : ∀ e, (s'.ev e).evTimeout = (s.ev e).evTimeout
  live : ∀ i < n, ∃ e, s'.cell i = some e ∧ (s'.ev e).minHeapIdx = i
  events : ∀ e, (∃ i < n, s'.cell i = some e) ↔ e = x ∨ ∃ i < n, i ≠ h ∧ s.cell i = some e
  ev : ∀ e ≠ x, (¬ ∃ i < n, i ≠ h ∧ s.cell i = some e) → s'.ev e = s.ev e
  frame : ∀ i, i ≠ h → ¬ Above i h → s'.cell i = s.cell i
  order : OrderedOff s.key n h → (s.ev x).evTimeout < s.key (parent h) → Ordered s'.key n

/-- The event is put where the hole has climbed to. -/
lemma Climbed.raised (hc : Climbed n h j x s s') (hn : n ≤ 2 ^ 31) (hp : Put j x j s' t) :
    Raised n h x s t := by
  have hm := hc.moved
  refine ⟨hp.heap_n.trans hm.heap_n, hp.heap_a.trans hm.heap_a, hp.size.trans hm.size,
    fun e => (hp.timeout e).trans (hm.timeout e), hc.holed.fill hn hp, fun e => ?_,
    fun e hne he => (hp.ev_of_ne hne).trans (hm.ev e he), fun i hi ha => ?_, fun ho hv => ?_⟩
  · rw [← hm.others]
    constructor
    · rintro ⟨i, hi, he⟩
      rcases eq_or_ne i j with rfl | hij
      · rw [hp.cell_self] at he
        exact Or.inl (Option.some.inj he).symm
      · rw [hp.cell_of_ne i hij] at he
        exact Or.inr ⟨i, hi, hij, he⟩
    · rintro (rfl | ⟨i, hi, hij, he⟩)
      · exact ⟨j, hc.holed.hole, hp.cell_self⟩
      · exact ⟨i, hi, (hp.cell_of_ne i hij).trans he⟩
  · have hij : i ≠ j := by
      rintro rfl
      exact hc.above.elim hi ha
    rw [hp.cell_of_ne i hij, hc.frame i hi ha]
  · obtain ⟨ho', hbelow⟩ := hc.order ho hv
    rw [hp.key]
    exact ho'.fill hc.stop hbelow

/-- **The upward loop that erase and adjust use.** -/
theorem minHeapShiftUpUnconditional_spec (hd : Holed s n h x) (h0 : 0 < h) (hn : n ≤ 2 ^ 31) :
    ∃ s', minHeapShiftUpUnconditional h x s = some s' ∧ Raised n h x s s' := by
  have hh := hd.hole
  obtain ⟨s₁, j, hloop, hc⟩ :=
    shiftUpUnconditionalLoop_spec hn loopFuel hd h0 (lt_loopFuel (by omega))
  obtain ⟨s', hs', hp⟩ := exists_put (e := x) (v := j) (hc.holed.hole.trans_le hc.holed.le_size)
  exact ⟨s', minHeapShiftUpUnconditional_eq_some.2 ⟨s₁, j, hloop, hs'⟩, hc.raised hn hp⟩

/-! ## The hole of `min_heap_shift_up_` -/

/-- Every store was one of `x`. -/
structure Copied (x : E) (s s' : Store E) : Prop where
  heap_n : s'.heap.n = s.heap.n
  heap_a : s'.heap.a = s.heap.a
  size : s'.size = s.size
  timeout : ∀ e, (s'.ev e).evTimeout = (s.ev e).evTimeout
  ev : ∀ e ≠ x, s'.ev e = s.ev e
  cell : ∀ i, s'.cell i = s.cell i ∨ s'.cell i = some x

omit [DecidableEq E] in
lemma Copied.refl (x : E) (s : Store E) : Copied x s s :=
  ⟨rfl, rfl, rfl, fun _ => rfl, fun _ _ => rfl, fun _ => Or.inl rfl⟩

omit [DecidableEq E] in
lemma Copied.trans (hc : Copied x s s') (hc' : Copied x s' t) : Copied x s t := by
  refine ⟨hc'.heap_n.trans hc.heap_n, hc'.heap_a.trans hc.heap_a, hc'.size.trans hc.size,
    fun e => (hc'.timeout e).trans (hc.timeout e), fun e he => (hc'.ev e he).trans (hc.ev e he),
    fun i => ?_⟩
  rcases hc'.cell i with hi | hi
  · rw [hi]
    exact hc.cell i
  · exact Or.inr hi

/-- What `min_heap_shift_up_` stores at the parent does not change the way from there. -/
lemma exists_put_parent (h0 : 0 < h) (hfill : ∀ i, Above i h → ∃ e, s.cell i = some e) :
    ∃ s', s.put (parent h) x h = some s' ∧ Put (parent h) x h s s' ∧
      (∀ i, Above i (parent h) → ∃ e, s'.cell i = some e) ∧
        (Climbs s'.key (s'.ev x).evTimeout (parent h) ↔
          Climbs s.key (s.ev x).evTimeout (parent h)) := by
  have hsize : parent h < s.size := by
    obtain ⟨y, hy⟩ := hfill (parent h) (.parent h0)
    by_contra hle
    rw [cell_of_size_le (not_lt.1 hle)] at hy
    cases hy
  obtain ⟨s', hs', hp⟩ := exists_put (s := s) (e := x) (v := h) hsize
  refine ⟨s', hs', hp, fun i hi => ?_, ?_⟩
  · rw [hp.cell_of_ne i hi.lt.ne]
    exact hfill i (.step h0 hi)
  · rw [hp.timeout]
    refine Climbs.congr fun i hi => ?_
    rw [hp.key, Function.update_of_ne hi.ne]

lemma Put.copied (hp : Put i x v s s') : Copied x s s' := by
  refine ⟨hp.heap_n, hp.heap_a, hp.size, hp.timeout, fun e he => hp.ev_of_ne he, fun j => ?_⟩
  rcases eq_or_ne j i with rfl | hne
  · exact Or.inr hp.cell_self
  · exact Or.inl (hp.cell_of_ne j hne)

omit [DecidableEq E] in
/-- A cell that holds `x` goes on holding it. -/
lemma Copied.cell_self (hc : Copied x s s') (hi : s.cell i = some x) : s'.cell i = some x := by
  rcases hc.cell i with h | h
  · exact h.trans hi
  · exact h

/-- Whatever the cells hold, a loop that ends has stored nothing but `x`. -/
lemma copied_of_shiftUpLoop :
    ∀ {fuel h : ℕ} {s : Store E}, shiftUpLoop fuel h x s = some (s', j) → Copied x s s' := by
  intro fuel
  induction fuel with
  | zero => intro h s hs; cases hs
  | succ fuel ih =>
    intro h s hs
    rcases shiftUpLoop_succ.1 hs with ⟨-, heq⟩ | ⟨-, s₁, hs₁, hs⟩
    · obtain ⟨rfl, -⟩ := Prod.mk.inj heq
      exact .refl x s
    · exact (put_of_eq_some hs₁).copied.trans (ih hs)

lemma copied_of_minHeapShiftUp (hs : minHeapShiftUp h x s = some s') : Copied x s s' := by
  obtain ⟨s₁, j, hloop, hput⟩ := minHeapShiftUp_eq_some.1 hs
  exact (copied_of_shiftUpLoop hloop).trans (put_of_eq_some hput).copied

/-- The loop of `min_heap_shift_up_` ends at the root exactly if all keys on the way there are
greater; the cells on the way have to be filled. -/
lemma shiftUpLoop_spec (fuel : ℕ) :
    ∀ {s : Store E} {h : ℕ}, h < 2 ^ 32 → h < fuel → (∀ i, Above i h → ∃ e, s.cell i = some e) →
      ∃ s' j, shiftUpLoop fuel h x s = some (s', j) ∧ Copied x s s' ∧ j ≤ h ∧
        (j = 0 ↔ Climbs s.key (s.ev x).evTimeout h) ∧ (j ≠ h → s'.cell (parent h) = some x) := by
  induction fuel with
  | zero => intro s h _ hf; omega
  | succ fuel ih =>
    intro s h hh hf hfill
    have hgreater := parentGreater_eq (x := x) hh fun h0 => hfill _ (.parent h0)
    by_cases hgo : 0 < h ∧ (s.ev x).evTimeout < s.key (parent h)
    · have h0 := hgo.1
      have hlt := parent_lt h0
      obtain ⟨s₁, hs₁, hp, hfill₁, hclimbs⟩ := exists_put_parent (x := x) h0 hfill
      obtain ⟨s', j, hloop, hcop, hle, hzero, -⟩ := ih (by omega) (by omega) hfill₁
      rw [← parentIdx_eq h0 hh] at hs₁ hloop
      refine ⟨s', j, ?_, hp.copied.trans hcop, by omega, ?_, fun _ => hcop.cell_self hp.cell_self⟩
      · exact shiftUpLoop_succ.2 (Or.inr ⟨by rw [hgreater, decide_eq_true hgo], s₁, hs₁, hloop⟩)
      · rw [hzero, hclimbs, climbs_iff h0, and_iff_right hgo.2]
    · refine ⟨s, h, ?_, .refl x s, le_refl h, ?_, absurd rfl⟩
      · exact shiftUpLoop_succ.2 (Or.inl ⟨by rw [hgreater, decide_eq_false hgo], rfl⟩)
      · rcases Nat.eq_zero_or_pos h with rfl | h0
        · exact iff_of_true rfl climbs_zero
        · exact iff_of_false h0.ne' fun hc => hgo ⟨h0, ((climbs_iff h0).1 hc).1⟩

/-- `min_heap_shift_up_` makes its last store at the parent of the position it ends at, or at
index 2147483647 if that is the root. -/
lemma minHeapShiftUp_spec (hh : h < 2 ^ 32) (hfill : ∀ i, Above i h → ∃ e, s.cell i = some e) :
    ∃ s' j, minHeapShiftUp h x s = s'.put (parentIdx j) x j ∧ Copied x s s' ∧ j ≤ h ∧
      (j = 0 ↔ Climbs s.key (s.ev x).evTimeout h) ∧ (j ≠ h → s'.cell (parent h) = some x) := by
  obtain ⟨s', j, hloop, hspec⟩ := shiftUpLoop_spec (x := x) loopFuel hh (lt_loopFuel hh) hfill
  refine ⟨s', j, ?_, hspec⟩
  rw [minHeapShiftUp, hloop]
  rfl

/-! ## The hole of `min_heap_shift_down_` -/

omit [DecidableEq E] in
lemma chooseChild_eq (hf : Filled s s.heap.n) (hh : h < 2 ^ 31 - 1)
    (hle : 2 * h + 2 ≤ s.heap.n) :
    chooseChild (2 * h + 2) s = some (minChild s.key s.heap.n h) := by
  have hleft : toUInt32 (((2 * h + 2 : ℕ) : ℤ) - 1) = 2 * h + 1 := by
    unfold toUInt32
    omega
  rw [chooseChild, minChild, hleft]
  by_cases hlast : 2 * h + 2 = s.heap.n
  · rw [if_pos hlast, if_pos (Or.inl hlast)]
  · obtain ⟨r, hr⟩ := hf (2 * h + 2) (by omega)
    obtain ⟨l, hl⟩ := hf (2 * h + 1) (by omega)
    rw [if_neg hlast, hr, hl, key_of_cell hr, key_of_cell hl]
    simp only [Option.bind_eq_bind, Option.bind_some, minHeapElemGreater_iff, hlast, false_or]

omit [DecidableEq E] in
/-- From the last position of all the child's index wraps around to 0, and the cell before it is
looked at. -/
lemma chooseChild_wrapped (hn : s.heap.n ≠ 0) (hsize : s.size < 2 ^ 32) :
    chooseChild 0 s = none := by
  have hleft : toUInt32 (((0 : ℕ) : ℤ) - 1) = 2 ^ 32 - 1 := rfl
  rw [chooseChild, if_neg (Ne.symm hn), hleft, cell_of_size_le (i := 2 ^ 32 - 1) (by omega)]
  cases s.cell 0 <;> rfl

/-- The hole has sunk from `i` to `h`. -/
structure Sunk (n i h : ℕ) (x : E) (s s' : Store E) : Prop where
  path : SinksTo s.key n (s.ev x).evTimeout i h
  moved : Moved n i h s s'
  below : ∀ j, h ≤ j → s'.cell j = s.cell j
  still : h = i → s' = s

/-- The event at the smaller child is moved into the hole. -/
lemma Sunk.cons {c : ℕ} (hs : Sunk n c h x s' t) (hp : Put i y i s s') (hy : s.cell c = some y)
    (hstep : Sinks s.key n (s.ev x).evTimeout i c) : Sunk n i h x s t := by
  have hic : i < c := hstep.eq ▸ lt_minChild s.key n i
  have hcn : c < n := hstep.eq ▸ minChild_lt hstep.le
  have hkey : ∀ j, c < j → j < n → s.key j = s'.key j := by
    intro j hj _
    rw [hp.key, Function.update_of_ne (by omega)]
  have hpath : SinksTo s.key n (s.ev x).evTimeout c h := by
    rw [← hp.timeout]
    exact hs.path.congr hkey
  have hch : c ≤ h := by
    rcases hs.path.eq_or_lt with rfl | hlt
    · exact le_refl _
    · exact hlt.1.le
  refine ⟨.head hstep hpath, (hp.moved hy hcn (by omega) hic.ne').trans hs.moved, fun j hj => ?_,
    fun heq => by omega⟩
  rw [hs.below j hj, hp.cell_of_ne j (by omega)]

/-- The loop ends at a leaf, or above a child that is not smaller. -/
lemma shiftDownLoop_spec (hn : n ≤ 2 ^ 31) (fuel : ℕ) :
    ∀ {s : Store E} {i : ℕ}, s.heap.n = n → Filled s n → s.size < 2 ^ 32 → i ≤ n → i < 2 ^ 31 →
      n < fuel + i →
      ∃ s' h, Sunk n i h x s s' ∧
        ((n < 2 * h + 2 ∧ shiftDownLoop fuel i (childIdx i) x s =
            if h < 2 ^ 31 - 1 then some (s', h, 2 * h + 2) else none) ∨
          (2 * h + 2 ≤ n ∧ (s.ev x).evTimeout ≤ s.key (minChild s.key n h) ∧
            shiftDownLoop fuel i (childIdx i) x s = some (s', h, minChild s.key n h))) := by
  induction fuel with
  | zero => intro s i _ _ _ hi _ hf; omega
  | succ fuel ih =>
    intro s i hsn hfill hsize hin hi hf
    have hself : Sunk n i i x s s := ⟨.refl, .refl n i s, fun _ _ => rfl, fun _ => rfl⟩
    rw [shiftDownLoop]
    rcases Nat.lt_or_ge i (2 ^ 31 - 1) with hlt | hge
    swap
    · -- the index of the child wraps around
      have hchild : childIdx i = 0 := by
        obtain rfl : i = 2 ^ 31 - 1 := by omega
        rfl
      refine ⟨s, i, hself, Or.inl ⟨by omega, ?_⟩⟩
      rw [hchild, if_pos (Nat.zero_le _), chooseChild_wrapped (by omega) hsize, if_neg (by omega)]
      rfl
    rw [childIdx_eq hlt]
    rcases Nat.lt_or_ge n (2 * i + 2) with hleaf | hle
    · exact ⟨s, i, hself, Or.inl ⟨hleaf, by rw [if_neg (by omega), if_pos hlt]⟩⟩
    have hcn := minChild_lt (k := s.key) hle
    have hic := lt_minChild s.key n i
    obtain ⟨y, hy⟩ := hfill _ hcn
    rw [if_pos (by omega), chooseChild_eq (hsn ▸ hfill) hlt (by omega), hsn]
    simp only [Option.bind_eq_bind, Option.bind_some, hy, minHeapElemGreater_iff]
    rw [← key_of_cell hy]
    by_cases hgo : s.key (minChild s.key n i) < (s.ev x).evTimeout
    · have hlen := hfill.le_size
      obtain ⟨s₁, hs₁, hp⟩ := exists_put (s := s) (i := i) (e := y) (v := i) (by omega)
      have hfill₁ := hp.filled hfill
      obtain ⟨s', h, hsunk, hend⟩ := ih (hp.heap_n.trans hsn) hfill₁ (by rw [hp.size]; exact hsize)
        hcn.le (by omega) (by omega)
      have hsunk' := hsunk.cons hp hy ⟨hle, rfl, hgo⟩
      have hch : i < h := by
        rcases hsunk.path.eq_or_lt with heq | hlt
        · omega
        · omega
      have hkey : ∀ j, h < j → s₁.key j = s.key j := by
        intro j hj
        rw [hp.key, Function.update_of_ne (by omega)]
      rw [if_pos hgo, hs₁, Option.bind_some]
      refine ⟨s', h, hsunk', ?_⟩
      rcases hend with hleaf | ⟨hleh, hmin, hloop⟩
      · exact Or.inl hleaf
      · rw [minChild_congr hleh fun j hj _ => hkey j hj] at hmin hloop
        rw [hp.timeout, hkey _ (lt_minChild s.key n h)] at hmin
        exact Or.inr ⟨hleh, hmin, hloop⟩
    · exact ⟨s, i, hself, Or.inr ⟨hle, not_lt.1 hgo, if_neg hgo⟩⟩

/-- **The downward loop.**  The hole sinks to `h`, and the last store is made not there but
below it: behind the leaf, or at the child that is not smaller. -/
theorem minHeapShiftDown_spec (hn : s.heap.n ≤ 2 ^ 31) (hfill : Filled s s.heap.n)
    (hsize : s.size < 2 ^ 32) (hin : i ≤ s.heap.n) (hi : i < 2 ^ 31) :
    ∃ s' h, Sunk s.heap.n i h x s s' ∧
      ((s.heap.n < 2 * h + 2 ∧ minHeapShiftDown i x s = s'.put (2 * h + 2) x h) ∨
        (2 * h + 2 ≤ s.heap.n ∧ (s.ev x).evTimeout ≤ s.key (minChild s.key s.heap.n h) ∧
          minHeapShiftDown i x s = s'.put (minChild s.key s.heap.n h) x h)) := by
  have hfuel : s.heap.n < loopFuel + i := (lt_loopFuel (by omega)).trans_le (Nat.le_add_right _ _)
  obtain ⟨s', h, hsunk, hend⟩ :=
    shiftDownLoop_spec (x := x) hn loopFuel rfl hfill hsize hin hi hfuel
  refine ⟨s', h, hsunk, ?_⟩
  rcases hend with ⟨hleaf, hloop⟩ | ⟨hle, hmin, hloop⟩
  · refine Or.inl ⟨hleaf, ?_⟩
    rw [minHeapShiftDown, hloop]
    split
    · rfl
    · rw [put_none (by rw [hsunk.moved.size]; omega)]
      rfl
  · refine Or.inr ⟨hle, hmin, ?_⟩
    rw [minHeapShiftDown, hloop]
    rfl

omit [DecidableEq E] in
/-- The event `x` has left the live cells, if it was only in the one that the hole has sunk
from. -/
lemma Sunk.cell_ne (hs : Sunk n i h x s s')
    (hx : ∀ j < n, s.cell j = some x → j = i ∧ i ≠ h) : ∀ j < n, s'.cell j ≠ some x := by
  intro j hj hjx
  have hoff : ¬ ∃ j < n, j ≠ i ∧ s.cell j = some x := by
    rintro ⟨j, hj, hne, hjx⟩
    exact hne (hx j hj hjx).1
  rcases eq_or_ne j h with rfl | hne
  · rw [hs.below j (le_refl j)] at hjx
    obtain ⟨hji, hne⟩ := hx j hj hjx
    exact hne hji.symm
  · exact hoff ((hs.moved.others x).1 ⟨j, hj, hne, hjx⟩)

end LibeventLearn.Event2
