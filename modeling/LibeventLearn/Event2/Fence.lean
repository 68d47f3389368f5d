import LibeventLearn.Event2.Width

/-!
# What an operation does not look at

A heap is fenced when there is nothing in its dead cells.  An operation that is defined on the
fenced heap reads no dead cell, unless it has filled it itself, and it does the same on the heap
as it is.  That is so because whatever the functions of the heap do to a heap they do to those
that cover it, which differ from it only in cells in which it has nothing.
-/

namespace LibeventLearn.Event2

open Lib

variable {E : Type}

/-- The heap with nothing in the cells that are not live. -/
def Store.fenced (s : Store E) : Store E :=
  { s with
    heap :=
      { s.heap with
        p := s.heap.p.map fun p =>
          p.take s.heap.n ++ List.replicate (p.length - s.heap.n) none } }

/-- The heap `s'` has all that `s` has, and the same outside of the array. -/
structure Covers (s s' : Store E) : Prop where
  heap_n : s'.heap.n = s.heap.n
  heap_a : s'.heap.a = s.heap.a
  size : s'.size = s.size
  ev : s'.ev = s.ev
  cell : ∀ {i e}, s.cell i = some e → s'.cell i = some e

variable {T : SizeT} {realloc : ℕ → Bool} {s s' t : Store E} {e x y : E} {b : Bool} {r : ℤ}
  {i j h n c v : ℕ}

/-! ## The fenced heap -/

@[simp] lemma fenced_n : s.fenced.heap.n = s.heap.n := rfl

lemma fenced_p {p : List (Option E)} (hp : s.heap.p = some p) :
    s.fenced.heap.p = some (p.take s.heap.n ++ List.replicate (p.length - s.heap.n) none) := by
  simp only [Store.fenced, hp, Option.map_some]

@[simp] lemma fenced_size : s.fenced.size = s.size := by
  cases hp : s.heap.p with
  | none => simp [Store.size, Store.fenced, hp]
  | some p =>
    simp only [Store.size, fenced_p hp, hp, Option.getD_some, List.length_append,
      List.length_take, List.length_replicate]
    omega

lemma fenced_cell (hi : i < s.heap.n) : s.fenced.cell i = s.cell i := by
  cases hp : s.heap.p with
  | none => simp [Store.cell, Store.fenced, hp]
  | some p =>
    rw [cell_of_block hp, cell_of_block (fenced_p hp)]
    rcases Nat.lt_or_ge i p.length with hlt | hge
    · rw [List.getElem?_append_left (by rw [List.length_take]; omega), List.getElem?_take_of_lt hi]
    · rw [List.getElem?_append_right (by rw [List.length_take]; omega),
        List.getElem?_eq_none hge, List.getElem?_eq_none (by simp; omega)]

lemma fenced_cell_of_le (hi : s.heap.n ≤ i) : s.fenced.cell i = none := by
  cases hp : s.heap.p with
  | none => simp [Store.cell, Store.fenced, hp]
  | some p =>
    rw [cell_of_block (fenced_p hp),
      List.getElem?_append_right (by rw [List.length_take]; omega), List.getElem?_replicate]
    split <;> rfl

lemma fenced_key (hi : i < s.heap.n) : s.fenced.key i = s.key i := by
  rw [Store.key, Store.key, fenced_cell hi]
  rfl

lemma Placed.fenced (hp : Placed s) : Placed s.fenced := by
  refine ⟨hp.n_le, hp.a_lt, fenced_size.trans hp.size, hp.int, fun i hi => ?_⟩
  obtain ⟨e, he, hei⟩ := hp.live i hi
  exact ⟨e, (fenced_cell (s := s) hi).trans he, hei⟩

lemma covers_fenced : Covers s.fenced s := by
  refine ⟨rfl, rfl, fenced_size.symm, rfl, fun {i e} he => ?_⟩
  rcases Nat.lt_or_ge i s.heap.n with hi | hi
  · rwa [fenced_cell hi] at he
  · rw [fenced_cell_of_le hi] at he
    cases he

/-! ## The functions -/

namespace Covers

/-- Another number of live cells, in both. -/
lemma with_n (hc : Covers s s') (n : ℕ) :
    Covers { s with heap := { s.heap with n := n } } { s' with heap := { s'.heap with n := n } } :=
  ⟨rfl, hc.heap_a, hc.size, hc.ev, hc.cell⟩

lemma elemGreater (hc : Covers s s') : minHeapElemGreater x y s' = minHeapElemGreater x y s := by
  rw [minHeapElemGreater, minHeapElemGreater, hc.ev]

lemma parentGreater (hc : Covers s s') (hs : parentGreater h x s = some b) :
    parentGreater h x s' = some b := by
  rw [Event2.parentGreater] at hs ⊢
  split
  · rename_i h0
    rwa [if_pos h0] at hs
  · rename_i h0
    rw [if_neg h0, Option.map_eq_some_iff] at hs
    obtain ⟨y, hy, rfl⟩ := hs
    rw [hc.cell hy, Option.map_some, hc.elemGreater]

lemma chooseChild (hc : Covers s s') (hs : chooseChild i s = some c) :
    chooseChild i s' = some c := by
  rw [Event2.chooseChild] at hs ⊢
  rw [hc.heap_n]
  split
  · rename_i hn
    rwa [if_pos hn] at hs
  · rename_i hn
    rw [if_neg hn] at hs
    obtain ⟨y, hy, hs⟩ := Option.bind_eq_some_iff.1 hs
    obtain ⟨z, hz, hs⟩ := Option.bind_eq_some_iff.1 hs
    rw [hc.cell hy, hc.cell hz]
    simp only [Option.bind_eq_bind, Option.bind_some, hc.elemGreater]
    exact hs

lemma goesUp (hc : Covers s s') (hs : goesUp e x s = some b) : goesUp e x s' = some b := by
  rw [Event2.goesUp] at hs ⊢
  obtain ⟨d, hd, hs⟩ := Option.bind_eq_some_iff.1 hs
  rw [hc.ev, hd]
  simp only [Option.bind_eq_bind, Option.bind_some]
  split at hs
  · rename_i hpos
    obtain ⟨y, hy, hs⟩ := Option.bind_eq_some_iff.1 hs
    rw [if_pos hpos, hc.cell hy, Option.bind_some, hc.elemGreater]
    exact hs
  · rename_i hpos
    rw [if_neg hpos]
    exact hs

end Covers

variable [DecidableEq E]

namespace Covers

lemma mark {w : ℤ} (hc : Covers s s') : Covers (s.mark e w) (s'.mark e w) := by
  refine ⟨hc.heap_n, hc.heap_a, hc.size, ?_, hc.cell⟩
  rw [Store.mark, Store.mark, hc.ev]

lemma put (hc : Covers s s') (hs : s.put i e v = some t) :
    ∃ t', s'.put i e v = some t' ∧ Covers t t' := by
  have hp := put_of_eq_some hs
  have hi : i < s'.size := by
    rw [hc.size]
    exact lt_size_of_put hs
  obtain ⟨t', ht', hp'⟩ := exists_put (e := e) (v := v) hi
  refine ⟨t', ht', ?_, ?_, ?_, ?_, ?_⟩
  · rw [hp'.heap_n, hp.heap_n, hc.heap_n]
  · rw [hp'.heap_a, hp.heap_a, hc.heap_a]
  · rw [hp'.size, hp.size, hc.size]
  · rw [hp'.ev, hp.ev, hc.ev]
  · intro j z hz
    rcases eq_or_ne j i with rfl | hne
    · rw [hp'.cell_self, ← hz, hp.cell_self]
    · rw [hp.cell_of_ne j hne] at hz
      rw [hp'.cell_of_ne j hne, hc.cell hz]

lemma shiftUpUnconditionalLoop {fuel : ℕ} :
    ∀ {h : ℕ} {s s' : Store E}, Covers s s' →
      shiftUpUnconditionalLoop fuel h x s = some (t, j) →
        ∃ t', shiftUpUnconditionalLoop fuel h x s' = some (t', j) ∧ Covers t t' := by
  induction fuel with
  | zero => intro h s s' _ hs; cases hs
  | succ fuel ih =>
    intro h s s' hc hs
    obtain ⟨y, s₁, hy, hs₁, hround⟩ := shiftUpUnconditionalLoop_succ.1 hs
    obtain ⟨s₁', hs₁', hc₁⟩ := hc.put hs₁
    rcases hround with ⟨hgo, heq⟩ | ⟨hgo, hs⟩
    · obtain ⟨rfl, rfl⟩ := Prod.mk.inj heq
      exact ⟨s₁', shiftUpUnconditionalLoop_succ.2
        ⟨y, s₁', hc.cell hy, hs₁', Or.inl ⟨hc₁.parentGreater hgo, rfl⟩⟩, hc₁⟩
    · obtain ⟨t', ht', hct⟩ := ih hc₁ hs
      exact ⟨t', shiftUpUnconditionalLoop_succ.2
        ⟨y, s₁', hc.cell hy, hs₁', Or.inr ⟨hc₁.parentGreater hgo, ht'⟩⟩, hct⟩

lemma minHeapShiftUpUnconditional (hc : Covers s s')
    (hs : minHeapShiftUpUnconditional h x s = some t) :
    ∃ t', minHeapShiftUpUnconditional h x s' = some t' ∧ Covers t t' := by
  obtain ⟨s₁, j, hloop, hput⟩ := minHeapShiftUpUnconditional_eq_some.1 hs
  obtain ⟨s₁', hloop', hc₁⟩ := hc.shiftUpUnconditionalLoop hloop
  obtain ⟨t', hput', hct⟩ := hc₁.put hput
  exact ⟨t', minHeapShiftUpUnconditional_eq_some.2 ⟨s₁', j, hloop', hput'⟩, hct⟩

lemma shiftUpLoop {fuel : ℕ} :
    ∀ {h : ℕ} {s s' : Store E}, Covers s s' → shiftUpLoop fuel h x s = some (t, j) →
      ∃ t', shiftUpLoop fuel h x s' = some (t', j) ∧ Covers t t' := by
  induction fuel with
  | zero => intro h s s' _ hs; cases hs
  | succ fuel ih =>
    intro h s s' hc hs
    rcases shiftUpLoop_succ.1 hs with ⟨hgo, heq⟩ | ⟨hgo, s₁, hs₁, hs⟩
    · obtain ⟨rfl, rfl⟩ := Prod.mk.inj heq
      exact ⟨s', shiftUpLoop_succ.2 (Or.inl ⟨hc.parentGreater hgo, rfl⟩), hc⟩
    · obtain ⟨s₁', hs₁', hc₁⟩ := hc.put hs₁
      obtain ⟨t', ht', hct⟩ := ih hc₁ hs
      exact ⟨t', shiftUpLoop_succ.2 (Or.inr ⟨hc.parentGreater hgo, s₁', hs₁', ht'⟩), hct⟩

lemma minHeapShiftUp (hc : Covers s s') (hs : minHeapShiftUp h x s = some t) :
    ∃ t', minHeapShiftUp h x s' = some t' ∧ Covers t t' := by
  obtain ⟨s₁, j, hloop, hput⟩ := minHeapShiftUp_eq_some.1 hs
  obtain ⟨s₁', hloop', hc₁⟩ := hc.shiftUpLoop hloop
  obtain ⟨t', hput', hct⟩ := hc₁.put hput
  exact ⟨t', minHeapShiftUp_eq_some.2 ⟨s₁', j, hloop', hput'⟩, hct⟩

lemma shiftDownLoop {fuel : ℕ} :
    ∀ {h d : ℕ} {s s' : Store E}, Covers s s' → shiftDownLoop fuel h d x s = some (t, j, c) →
      ∃ t', shiftDownLoop fuel h d x s' = some (t', j, c) ∧ Covers t t' := by
  induction fuel with
  | zero => intro h d s s' _ hs; cases hs
  | succ fuel ih =>
    intro h d s s' hc hs
    rcases shiftDownLoop_succ.1 hs with ⟨hlt, heq⟩ | ⟨hle, m, y, hm, hy, hround⟩
    · obtain ⟨rfl, hjc⟩ := Prod.mk.inj heq
      rw [← hc.heap_n] at hlt
      exact ⟨s', shiftDownLoop_succ.2 (Or.inl ⟨hlt, congrArg _ hjc⟩), hc⟩
    · rw [← hc.heap_n] at hle
      have hm' := hc.chooseChild hm
      have hy' := hc.cell hy
      rcases hround with ⟨hgo, heq⟩ | ⟨hgo, s₁, hs₁, hs⟩
      · obtain ⟨rfl, hjc⟩ := Prod.mk.inj heq
        rw [← hc.elemGreater] at hgo
        exact ⟨s', shiftDownLoop_succ.2
          (Or.inr ⟨hle, m, y, hm', hy', Or.inl ⟨hgo, congrArg _ hjc⟩⟩), hc⟩
      · rw [← hc.elemGreater] at hgo
        obtain ⟨s₁', hs₁', hc₁⟩ := hc.put hs₁
        obtain ⟨t', ht', hct⟩ := ih hc₁ hs
        exact ⟨t', shiftDownLoop_succ.2
          (Or.inr ⟨hle, m, y, hm', hy', Or.inr ⟨hgo, s₁', hs₁', ht'⟩⟩), hct⟩

lemma minHeapShiftDown (hc : Covers s s') (hs : minHeapShiftDown h x s = some t) :
    ∃ t', minHeapShiftDown h x s' = some t' ∧ Covers t t' := by
  obtain ⟨s₁, j, m, hloop, hput⟩ := minHeapShiftDown_eq_some.1 hs
  obtain ⟨s₁', hloop', hc₁⟩ := hc.shiftDownLoop hloop
  obtain ⟨t', hput', hct⟩ := hc₁.put hput
  exact ⟨t', minHeapShiftDown_eq_some.2 ⟨s₁', j, m, hloop', hput'⟩, hct⟩

/-! ## The operations -/

omit [DecidableEq E] in
lemma minHeapTop (hc : Covers s s') {q : Option E} (hs : minHeapTop s = some q) :
    minHeapTop s' = some q := by
  rw [Event2.minHeapTop] at hs ⊢
  rw [hc.heap_n]
  split
  · rename_i hn
    rwa [if_pos hn] at hs
  · rename_i hn
    rw [if_neg hn, Option.map_eq_some_iff] at hs
    obtain ⟨y, hy, rfl⟩ := hs
    rw [hc.cell hy]
    rfl

lemma minHeapPop (hc : Covers s s') {q : Option E} (hs : minHeapPop s = some (t, q)) :
    ∃ t', minHeapPop s' = some (t', q) ∧ Covers t t' := by
  rcases eq_or_ne s.heap.n 0 with hn | hn
  · rw [minHeapPop_of_eq_zero hn] at hs
    obtain ⟨rfl, rfl⟩ := Prod.mk.inj (Option.some.inj hs)
    exact ⟨s', minHeapPop_of_eq_zero (hc.heap_n.trans hn), hc⟩
  · rw [minHeapPop_of_ne_zero hn] at hs
    cases hs

/-- The shift that follows the comparison with the parent. -/
lemma shift (hc : Covers s s') {up : Bool} {hole : ℕ} {g : Store E → Store E} {r₁ r₂ : ℤ}
    (hg : ∀ {t t'}, Covers t t' → Covers (g t) (g t'))
    (hs : (if up then (Event2.minHeapShiftUpUnconditional hole x s).bind fun t => some (t, r₁)
      else (Event2.minHeapShiftDown hole x s).bind fun t => some (g t, r₂)) = some (t, r)) :
    ∃ t', (if up then (Event2.minHeapShiftUpUnconditional hole x s').bind fun t => some (t, r₁)
      else (Event2.minHeapShiftDown hole x s').bind fun t => some (g t, r₂)) = some (t', r) ∧
        Covers t t' := by
  cases up with
  | true =>
    obtain ⟨s₁, hs₁, hs⟩ := Option.bind_eq_some_iff.1 hs
    obtain ⟨rfl, rfl⟩ := Prod.mk.inj (Option.some.inj hs)
    obtain ⟨t', ht', hct⟩ := hc.minHeapShiftUpUnconditional hs₁
    exact ⟨t', by rw [if_pos rfl, ht']; rfl, hct⟩
  | false =>
    obtain ⟨s₁, hs₁, hs⟩ := Option.bind_eq_some_iff.1 hs
    obtain ⟨rfl, rfl⟩ := Prod.mk.inj (Option.some.inj hs)
    obtain ⟨t', ht', hct⟩ := hc.minHeapShiftDown hs₁
    exact ⟨g t', by rw [if_neg (by decide), ht']; rfl, hg hct⟩

lemma minHeapErase (hc : Covers s s') (hs : minHeapErase e s = some (t, r)) :
    ∃ t', minHeapErase e s' = some (t', r) ∧ Covers t t' := by
  have hev : s'.ev e = s.ev e := congrFun hc.ev e
  rw [Event2.minHeapErase] at hs ⊢
  rw [hev, hc.heap_n]
  split at hs
  · rename_i hne
    obtain ⟨x, hx, hs⟩ := Option.bind_eq_some_iff.1 hs
    obtain ⟨up, hup, hs⟩ := Option.bind_eq_some_iff.1 hs
    have hc₁ := hc.with_n (toUInt32 ((s.heap.n : ℤ) - 1))
    rw [if_pos hne]
    simp only [Option.bind_eq_bind, Option.bind_some, hc.cell hx, hc₁.goesUp hup, hev]
    exact hc₁.shift (fun h => h.mark) hs
  · rename_i heq
    obtain ⟨rfl, rfl⟩ := Prod.mk.inj (Option.some.inj hs)
    exact ⟨s', if_neg heq, hc⟩

omit [DecidableEq E] in
lemma resized (hc : Covers s s') : Covers (s.resized c n) (s'.resized c n) := by
  refine ⟨hc.heap_n, rfl, resized_size.trans resized_size.symm, hc.ev, fun {i e} he => ?_⟩
  have hi : i < n := by
    by_contra hle
    rw [cell_of_size_le (by rw [resized_size]; omega)] at he
    cases he
  rw [resized_cell hi] at he ⊢
  exact hc.cell he

omit [DecidableEq E] in
/-- The block grows by the same number of cells in both. -/
lemma minHeapRevserse (hc : Covers s s') (hs : minHeapRevserse T realloc n s = (t, r)) :
    ∃ t', minHeapRevserse T realloc n s' = (t', r) ∧ Covers t t' := by
  rw [Event2.minHeapRevserse] at hs ⊢
  rw [hc.heap_a]
  split at hs
  · obtain ⟨rfl, rfl⟩ := Prod.mk.inj hs
    exact ⟨s', rfl, hc⟩
  · obtain ⟨rfl, rfl⟩ := Prod.mk.inj hs
    exact ⟨s', rfl, hc⟩
  · rename_i a bytes _
    dsimp only
    split at hs
    · obtain ⟨rfl, rfl⟩ := Prod.mk.inj hs
      rename_i hr
      rw [if_pos hr]
      refine ⟨_, rfl, hc.resized⟩
    · obtain ⟨rfl, rfl⟩ := Prod.mk.inj hs
      rename_i hr
      rw [if_neg hr]
      exact ⟨s', rfl, hc⟩

lemma minHeapPush (hc : Covers s s') (hs : minHeapPush T realloc e s = some (t, r)) :
    ∃ t', minHeapPush T realloc e s' = some (t', r) ∧ Covers t t' := by
  rw [Event2.minHeapPush] at hs ⊢
  rw [hc.heap_n]
  split at hs
  · rename_i hmax
    obtain ⟨rfl, rfl⟩ := Prod.mk.inj (Option.some.inj hs)
    exact ⟨s', if_pos hmax, hc⟩
  · rename_i hmax
    rw [if_neg hmax]
    cases hr : Event2.minHeapRevserse T realloc (toUInt32 (s.heap.n + 1)) s with
    | mk s₁ failed =>
      obtain ⟨s₁', hr', hc₁⟩ := hc.minHeapRevserse hr
      rw [hr] at hs
      rw [hr']
      dsimp only at hs ⊢
      split at hs
      · rename_i hfailed
        obtain ⟨rfl, rfl⟩ := Prod.mk.inj (Option.some.inj hs)
        rw [if_pos hfailed]
        exact ⟨s₁', rfl, hc₁⟩
      · rename_i hok
        obtain ⟨s₂, hs₂, hs⟩ := Option.bind_eq_some_iff.1 hs
        obtain ⟨rfl, rfl⟩ := Prod.mk.inj (Option.some.inj hs)
        obtain ⟨t', ht', hct⟩ :=
          (hc₁.with_n (toUInt32 ((s₁.heap.n : ℤ) + 1))).minHeapShiftUp hs₂
        rw [if_neg hok, hc₁.heap_n]
        exact ⟨t', by rw [ht']; rfl, hct⟩

lemma minHeapAdjust (hc : Covers s s') (hs : minHeapAdjust T realloc e s = some (t, r)) :
    ∃ t', minHeapAdjust T realloc e s' = some (t', r) ∧ Covers t t' := by
  have hev : s'.ev e = s.ev e := congrFun hc.ev e
  rw [Event2.minHeapAdjust] at hs ⊢
  rw [hev]
  split at hs
  · rename_i heq
    rw [if_pos heq]
    exact hc.minHeapPush hs
  · rename_i hne
    obtain ⟨up, hup, hs⟩ := Option.bind_eq_some_iff.1 hs
    rw [if_neg hne, hc.goesUp hup]
    simp only [Option.bind_eq_bind, Option.bind_some]
    exact hc.shift (fun h => h) hs

end Covers

end LibeventLearn.Event2
