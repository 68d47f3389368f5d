import LibeventLearn.Event2.Width

/-!
# Pushing and popping

`min_heap_push_` and `min_heap_pop_` on a valid heap.  The upward loop of `min_heap_push_`
stores the new event at the parent of the hole, where another event is, and moves none down;
into an empty heap it is stored at index 2147483647.  `min_heap_pop_` takes the top from
`min_heap_top_`, which returns NULL.
-/

namespace LibeventLearn.Event2

open Lib

variable {E : Type} [DecidableEq E] {T : SizeT} {realloc : ℕ → Bool} {s s' : Store E} {e x : E}

/-! ## Pushing -/

/-- What `min_heap_push_` should do when there is room. -/
def PushRight (T : SizeT) (realloc : ℕ → Bool) (e : E) (s : Store E) : Prop :=
  ∃ s', minHeapPush T realloc e s = some (s', 0) ∧ Valid s' ∧
    (∀ x, Live s' x ↔ x = e ∨ Live s x) ∧
    (∀ x, (s'.ev x).evTimeout = (s.ev x).evTimeout) ∧ ∀ x, ¬ Live s' x → s'.ev x = s.ev x

/-- In a heap with room, a push is its upward loop. -/
lemma minHeapPush_of_room (hp : Placed s) (hn : s.heap.n < 2 ^ 32 - 1)
    (hr : (minHeapRevserse T realloc (s.heap.n + 1) s).2 = 0) :
    ∃ s₁, minHeapRevserse T realloc (s.heap.n + 1) s = (s₁, 0) ∧ Grown (s.heap.n + 1) s s₁ ∧
      minHeapPush T realloc e s =
        (minHeapShiftUp s.heap.n e
          { s₁ with heap := { s₁.heap with n := s.heap.n + 1 } }).map fun s' => (s', 0) := by
  rcases minHeapPush_cases T realloc e (by omega) hp.a_lt with ⟨hmax | hfail, -⟩ | hroom
  · omega
  · rw [hfail] at hr
    omega
  · exact hroom

/-- A push into a heap with elements loses the event that was at the parent of the hole. -/
lemma not_pushRight_of_pos (hp : Placed s) (hpos : 0 < s.heap.n) (he : (s.ev e).minHeapIdx = -1)
    (hr : (minHeapRevserse T realloc (s.heap.n + 1) s).2 = 0) : ¬ PushRight T realloc e s := by
  have hn := hp.n_le_int
  have hpar := parent_lt hpos
  obtain ⟨s₁, -, hg, hpush⟩ := minHeapPush_of_room (e := e) hp (by omega) hr
  have hcell : ∀ i < s.heap.n, s₁.cell i = s.cell i := fun i hi =>
    hg.cell (hp.size.le.trans hg.a_le) i (hi.trans_le hp.filled.le_size)
  obtain ⟨y, hy, hyi⟩ := hp.live (parent s.heap.n) hpar
  obtain ⟨s₂, j, hshift, hcop, hjn, -, hover⟩ :=
    minHeapShiftUp_spec (s := { s₁ with heap := { s₁.heap with n := s.heap.n + 1 } })
      (h := s.heap.n) (x := e) (by omega) fun i hi => by
        obtain ⟨z, hz, -⟩ := hp.live i hi.lt
        exact ⟨z, (hcell i hi.lt).trans hz⟩
  rintro ⟨s', hs', hv', hl', -⟩
  rw [hpush, hshift, Option.map_eq_some_iff] at hs'
  obtain ⟨t, ht, heq⟩ := hs'
  obtain ⟨rfl, -⟩ := Prod.mk.inj heq
  have hput := put_of_eq_some ht
  have hye : y ≠ e := by
    rintro rfl
    omega
  have hev : t.ev y = s.ev y := by
    rw [hput.ev_of_ne hye, hcop.ev y hye]
    exact congrFun hg.ev y
  -- the parent's cell holds the new event now
  have hlost : t.cell (parent s.heap.n) = some e := by
    rcases eq_or_ne j s.heap.n with rfl | hne
    · rw [← parentIdx_eq hpos (by omega)]
      exact hput.cell_self
    · exact hput.copied.cell_self (hover hne)
  have hstill := (hv'.cell_of_live ((hl' y).2 (Or.inr ⟨_, hpar, hy⟩)) (hev ▸ hyi)).2
  exact hye (Option.some.inj (hstill.symm.trans hlost))

omit [DecidableEq E] in
/-- A heap that holds one event in its first cell. -/
lemma valid_of_single (hn : s.heap.n = 1) (ha : 0 < s.heap.a) (hlt : s.heap.a < 2 ^ 32)
    (hsize : s.size = s.heap.a) (hcell : s.cell 0 = some e) (hidx : (s.ev e).minHeapIdx = 0)
    (hint : ∀ x ≠ e, IsInt32 (s.ev x).minHeapIdx) : Valid s ∧ ∀ x, Live s x ↔ x = e := by
  refine ⟨⟨⟨by omega, hlt, hsize, fun x => ?_, fun i hi => ?_⟩, fun i h0 hi => by omega⟩,
    fun x => ?_⟩
  · rcases eq_or_ne x e with rfl | hne
    · rw [hidx]
      exact isInt32_natCast (x := 0) (by omega)
    · exact hint x hne
  · obtain rfl : i = 0 := by omega
    exact ⟨e, hcell, hidx⟩
  · constructor
    · rintro ⟨i, hi, hx⟩
      obtain rfl : i = 0 := by omega
      exact Option.some.inj (hx.symm.trans hcell)
    · rintro rfl
      exact ⟨0, by omega, hcell⟩

/-- A push into an empty heap stores the event at index 2147483647. -/
lemma minHeapPush_of_empty (hp : Placed s) (hn : s.heap.n = 0)
    (hr : (minHeapRevserse T realloc (s.heap.n + 1) s).2 = 0) :
    ∃ s₁, minHeapRevserse T realloc 1 s = (s₁, 0) ∧ Grown 1 s s₁ ∧
      minHeapPush T realloc e s =
        (Store.put (2 ^ 31 - 1) e 0 { s₁ with heap := { s₁.heap with n := 1 } }).map
          fun s' => (s', 0) := by
  obtain ⟨s₁, hs₁, hg, hpush⟩ := minHeapPush_of_room (e := e) hp (by omega) hr
  rw [hn] at hs₁ hg hpush
  rw [minHeapShiftUp_zero] at hpush
  exact ⟨s₁, hs₁, hg, hpush⟩

/-- The first block of a heap has 8 cells. -/
lemma not_pushRight_of_new (hp : Placed s) (hn : s.heap.n = 0) (ha : s.heap.a = 0)
    (hr : (minHeapRevserse T realloc (s.heap.n + 1) s).2 = 0) : ¬ PushRight T realloc e s := by
  obtain ⟨s₁, hs₁, hg, hpush⟩ := minHeapPush_of_empty (e := e) hp hn hr
  have hgrow : growth T s.heap.a (0 + 1) = .realloc 8 (8 * T.ptrSize) := by
    rw [ha]
    cases T <;> decide
  have ha₁ := revserse_a_of_growth hgrow hs₁
  have hsize₁ := hg.size hp.size
  rintro ⟨s', hs', -⟩
  rw [hpush, put_none (by show s₁.size ≤ _; omega)] at hs'
  cases hs'

/-- A push into an empty heap goes well if index 2147483647 is in the block, and the first cell
happens to hold the event. -/
lemma pushRight_of_empty_iff (hp : Placed s) (hn : s.heap.n = 0)
    (hr : (minHeapRevserse T realloc (s.heap.n + 1) s).2 = 0) :
    PushRight T realloc e s ↔ 2 ^ 31 ≤ s.heap.a ∧ s.cell 0 = some e := by
  rcases Nat.eq_zero_or_pos s.heap.a with ha | ha
  · exact iff_of_false (not_pushRight_of_new hp hn ha hr) fun h => by omega
  obtain ⟨s₁, hs₁, -, hpush⟩ := minHeapPush_of_empty (e := e) hp hn hr
  have hsame : minHeapRevserse T realloc 1 s = (s, 0) := by
    rw [minHeapRevserse, growth_of_le (by omega)]
  obtain rfl : s = s₁ := (Prod.mk.inj (hsame.symm.trans hs₁)).1
  have hno : ∀ x, ¬ Live s x := fun x hl => by
    have := hl.n_pos
    omega
  constructor
  · rintro ⟨s', hs', hv', hl', -⟩
    rw [hpush, Option.map_eq_some_iff] at hs'
    obtain ⟨t, ht, heq⟩ := hs'
    obtain ⟨rfl, -⟩ := Prod.mk.inj heq
    have hput := put_of_eq_some ht
    have hn' : t.heap.n = 1 := hput.heap_n
    refine ⟨?_, ?_⟩
    · have hlt := lt_size_of_put ht
      replace hlt : 2 ^ 31 - 1 < s.size := hlt
      rw [hp.size] at hlt
      omega
    · obtain ⟨x, hx, -⟩ := hv'.live 0 (by omega)
      obtain rfl := ((hl' x).1 ⟨0, by omega, hx⟩).resolve_right (hno x)
      rw [← hx]
      exact (hput.cell_of_ne 0 (by omega)).symm
  · rintro ⟨hlarge, h0⟩
    obtain ⟨t, ht, hput⟩ :=
      exists_put (s := { s with heap := { s.heap with n := 1 } }) (i := 2 ^ 31 - 1) (e := e)
        (v := 0) (by show _ < s.size; rw [hp.size]; omega)
    have hev : ∀ x ≠ e, t.ev x = s.ev x := fun x hx => hput.ev_of_ne hx
    obtain ⟨hv, hlive⟩ := valid_of_single hput.heap_n (by rw [hput.heap_a]; exact ha)
      (by rw [hput.heap_a]; exact hp.a_lt) (by rw [hput.size, hput.heap_a]; exact hp.size)
      ((hput.cell_of_ne 0 (by omega)).trans h0) hput.idx_self
      fun x hx => by rw [hev x hx]; exact hp.int x
    exact ⟨t, by rw [hpush, ht]; rfl, hv, fun x => by rw [hlive, or_iff_left (hno x)],
      hput.timeout, fun x hx => hev x fun h => hx ((hlive x).2 h)⟩

/-- **`min_heap_push_` never pushes right, but by accident.** -/
theorem pushRight_iff (hv : Valid s) (hn : s.heap.n < 2 ^ 31 - 1)
    (he : (s.ev e).minHeapIdx = -1)
    (hr : (minHeapRevserse T realloc (s.heap.n + 1) s).2 = 0) :
    PushRight T realloc e s ↔ s.heap.n = 0 ∧ 2 ^ 31 ≤ s.heap.a ∧ s.cell 0 = some e := by
  have hp := hv.toPlaced
  rcases Nat.eq_zero_or_pos s.heap.n with hz | hpos
  · rw [pushRight_of_empty_iff hp hz hr, and_iff_right hz]
  · exact iff_of_false (not_pushRight_of_pos hp hpos he hr) fun h => by omega

/-- An event is pushed over the one in the heap. -/
theorem push_overwrites :
    Valid (heapOf [0] 8) ∧ ((heapOf [0] 8).ev 1).minHeapIdx = -1 ∧
      (minHeapRevserse .bits64 (fun _ => true) 2 (heapOf [0] 8)).2 = 0 ∧
      ¬ PushRight .bits64 (fun _ => true) 1 (heapOf [0] 8) := by
  refine ⟨valid_heapOf (by decide), rfl, rfl, ?_⟩
  rintro ⟨s', hs', hv, hl, -⟩
  have hcell : (minHeapPush .bits64 (fun _ => true) 1 (heapOf [0] 8)).map
      (fun q => (q.1.cell 0, (q.1.ev 0).minHeapIdx)) = some (some 1, 0) := by rfl
  rw [hs'] at hcell
  simp only [Option.map_some, Option.some.injEq, Prod.mk.injEq] at hcell
  have hlive := hv.cell_of_live ((hl 0).2 (Or.inr ⟨0, by decide, rfl⟩)) hcell.2
  rw [hcell.1] at hlive
  exact absurd (Option.some.inj hlive.2) (by omega)

theorem pushRight_iff_empty : ¬ PushRight .bits64 (fun _ => true) 0 (heapOf [] 8) := by
  rw [pushRight_iff (valid_heapOf (by decide)) (by decide) rfl rfl]
  rintro ⟨-, ha, -⟩
  exact absurd ha (by decide)

/-! ## Popping -/

/-- What one `min_heap_pop_` should do. -/
def PopRight (s : Store E) : Prop :=
  ∃ s' e, minHeapPop s = some (s', some e) ∧ s.cell 0 = some e ∧
    (∀ x, Live s x → (s.ev e).evTimeout ≤ (s.ev x).evTimeout) ∧ (s'.ev e).minHeapIdx = -1 ∧
    Valid s' ∧ ∀ x, Live s' x ↔ x ≠ e ∧ Live s x

/-- The set of the live events. -/
def Store.live (s : Store E) : KeyedSet E Timeval :=
  ⟨((List.range s.heap.n).filterMap fun i => s.cell i).toFinset, fun e => (s.ev e).evTimeout⟩

lemma mem_live : x ∈ s.live.members ↔ Live s x := by
  simp only [Store.live, List.mem_toFinset, List.mem_filterMap, List.mem_range]
  rfl

/-- **`min_heap_pop_` never pops right.**  The first one from any heap with an element is
undefined. -/
theorem not_popRight (T : SizeT) (hv : Valid s) (hn : s.heap.n ≠ 0) :
    ¬ PopRight s ∧ ¬ DrainsInOrder T ⟨s, s.live⟩ := by
  have hpop := minHeapPop_of_ne_zero hn
  constructor
  · rintro ⟨s', e, hs', -⟩
    rw [hpop] at hs'
    cases hs'
  · rintro ⟨l, y, hexec, -⟩
    obtain ⟨x, hx, -⟩ := hv.live 0 (Nat.pos_of_ne_zero hn)
    have hmem : x ∈ s.live.members := mem_live.2 ⟨0, Nat.pos_of_ne_zero hn, hx⟩
    obtain ⟨k, hk⟩ := Nat.exists_eq_succ_of_ne_zero (Finset.card_ne_zero_of_mem hmem)
    rw [hk, List.replicate_succ] at hexec
    obtain ⟨r, -, hr, -⟩ := exec_cons_eq_some.1 hexec
    obtain ⟨q, hq, -⟩ := heapStep_eq_some.1 hr
    rw [HeapOp.run, hpop] at hq
    cases hq

/-- Popping the only event of a heap. -/
theorem pop_undefined :
    Valid (heapOf [1] 8) ∧ minHeapPop (heapOf [1] 8) = none ∧ ¬ PopRight (heapOf [1] 8) := by
  have hpop : minHeapPop (heapOf [1] 8) = none := by rfl
  refine ⟨valid_heapOf (by decide), hpop, ?_⟩
  rintro ⟨s', e, hs', -⟩
  rw [hpop] at hs'
  cases hs'

theorem not_popRight_two :
    ¬ PopRight (heapOf [1, 2] 8) ∧
      ¬ DrainsInOrder .bits64 ⟨heapOf [1, 2] 8, (heapOf [1, 2] 8).live⟩ :=
  not_popRight .bits64 (valid_heapOf (by decide)) (by decide)

end LibeventLearn.Event2
