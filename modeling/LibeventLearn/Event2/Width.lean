import LibeventLearn.Event2.Valid
import LibeventLearn.Lib.Run

/-!
# Capacities, positions and indices in 32 bits

The capacity of the heap is doubled in `unsigned`, positions are `unsigned` in the heap and
`int` in the events, and the indices of parents and children are computed in `unsigned`.  This
file says what of that is exact: the capacities always, the positions up to 2147483647, and the
indices where the hole is neither the root nor beyond 2147483646.
-/

namespace LibeventLearn.Event2

open Lib

variable {E : Type} {T : SizeT} {realloc : ℕ → Bool} {s s' t : Store E} {e x : E}
  {a cap bytes fuel i j h n : ℕ} {c : ℤ}

/-! ## Capacities -/

/-- Doubling may wrap around, but never leaves less than what is asked for. -/
lemma newCapacity_spec (a : ℕ) (hn : n < 2 ^ 32) :
    n ≤ newCapacity a n ∧ newCapacity a n < 2 ^ 32 := by
  unfold newCapacity toUInt32
  dsimp only
  split <;> split <;> omega

/-- The number of bytes is not reduced: where `size_t` has 32 bits, because of the test. -/
lemma growth_cases (ha : a < n) (hn : n < 2 ^ 32) :
    growth T a n = .tooLarge ∨
      growth T a n = .realloc (newCapacity a n) (newCapacity a n * T.ptrSize) ∧
        newCapacity a n * T.ptrSize < T.card := by
  have hcap := (newCapacity_spec a hn).2
  rw [growth, if_pos ha]
  cases T with
  | bits32 =>
    by_cases hbig : newCapacity a n > (SizeT.bits32.card - 1) / SizeT.bits32.ptrSize
    · exact Or.inl (if_pos hbig)
    · have hbytes : newCapacity a n * SizeT.bits32.ptrSize < SizeT.bits32.card := by
        simp only [SizeT.card, SizeT.ptrSize] at hbig ⊢
        omega
      refine Or.inr ⟨(if_neg hbig).trans ?_, hbytes⟩
      exact congrArg (Growth.realloc _) (Nat.mod_eq_of_lt hbytes)
  | bits64 =>
    have hbytes : newCapacity a n * SizeT.bits64.ptrSize < SizeT.bits64.card := by
      simp only [SizeT.card, SizeT.ptrSize]
      omega
    exact Or.inr ⟨congrArg (Growth.realloc _) (Nat.mod_eq_of_lt hbytes), hbytes⟩

lemma growth_of_le (hn : n ≤ a) : growth T a n = .enough := if_neg (by omega)

lemma growth_exact (hn : n < 2 ^ 32) (hg : growth T a n = .realloc cap bytes) :
    bytes = cap * T.ptrSize ∧ bytes < T.card := by
  rcases Nat.lt_or_ge a n with ha | ha
  · rcases growth_cases (T := T) ha hn with h | ⟨h, hlt⟩
    · rw [h] at hg
      cases hg
    · rw [h] at hg
      obtain ⟨rfl, rfl⟩ := Growth.realloc.inj hg
      exact ⟨rfl, hlt⟩
  · rw [growth_of_le ha] at hg
    cases hg

/-- What `min_heap_revserse_` changes when it succeeds. -/
structure Grown (n : ℕ) (s s' : Store E) : Prop where
  heap_n : s'.heap.n = s.heap.n
  ev : s'.ev = s.ev
  le : n ≤ s'.heap.a
  a_le : s.heap.a ≤ s'.heap.a
  lt : s'.heap.a < 2 ^ 32
  size : s.size = s.heap.a → s'.size = s'.heap.a
  cell : s.size ≤ s'.heap.a → ∀ i < s.size, s'.cell i = s.cell i

lemma Grown.refl (hn : n ≤ s.heap.a) (ha : s.heap.a < 2 ^ 32) : Grown n s s :=
  ⟨rfl, rfl, hn, le_refl _, ha, id, fun _ _ _ => rfl⟩

/-- The heap with a block of `cells` cells, of which the header says `cap`. -/
def Store.resized (cap cells : ℕ) (s : Store E) : Store E :=
  { s with heap := { s.heap with a := cap, p := some (resize s.heap.p cells) } }

lemma resized_size : (s.resized cap n).size = n := by
  simp only [Store.size, Store.resized, Option.getD_some, resize, List.length_append,
    List.length_take, List.length_replicate]
  omega

lemma resized_cell (hi : i < n) : (s.resized cap n).cell i = s.cell i := by
  rw [cell_of_block (s := s.resized cap n) rfl, resize]
  rcases Nat.lt_or_ge i s.size with hlt | hge
  · cases hp : s.heap.p with
    | none => simp [Store.size, hp] at hlt
    | some p =>
      have hlen : s.size = p.length := by simp [Store.size, hp]
      rw [cell_of_block hp, Option.getD_some,
        List.getElem?_append_left (by rw [List.length_take]; omega), List.getElem?_take_of_lt hi]
  · have hlen : ((s.heap.p.getD []).take n).length ≤ i := by
      have hsize : s.size = (s.heap.p.getD []).length := rfl
      rw [List.length_take]
      omega
    rw [cell_of_size_le hge, List.getElem?_append_right hlen, List.getElem?_replicate]
    split <;> rfl

lemma grown_resized (hn : n ≤ cap) (ha : s.heap.a ≤ cap) (hcap : cap < 2 ^ 32) :
    Grown n s (s.resized cap cap) :=
  ⟨rfl, rfl, hn, ha, hcap, fun _ => resized_size, fun hle _ hi => resized_cell (hi.trans_le hle)⟩

variable (T realloc) in
/-- `min_heap_revserse_` fails and changes nothing, or makes room. -/
lemma minHeapRevserse_cases (hn : n < 2 ^ 32) (ha : s.heap.a < 2 ^ 32) :
    minHeapRevserse T realloc n s = (s, -1) ∨
      ∃ s', minHeapRevserse T realloc n s = (s', 0) ∧ Grown n s s' := by
  rcases Nat.lt_or_ge s.heap.a n with hlt | hle
  · rcases growth_cases (T := T) hlt hn with hg | ⟨hg, -⟩
    · left
      rw [minHeapRevserse, hg]
    · rw [minHeapRevserse, hg]
      by_cases hr : realloc (newCapacity s.heap.a n * T.ptrSize)
      · have hcap := newCapacity_spec s.heap.a hn
        have hcells : newCapacity s.heap.a n * T.ptrSize / T.ptrSize = newCapacity s.heap.a n :=
          Nat.mul_div_cancel _ (by cases T <;> decide)
        refine Or.inr ⟨_, if_pos hr, ?_⟩
        rw [hcells]
        exact grown_resized hcap.1 (by omega) hcap.2
      · exact Or.inl (if_neg hr)
  · refine Or.inr ⟨s, ?_, .refl hle ha⟩
    rw [minHeapRevserse, growth_of_le hle]

lemma revserse_a_of_growth (hg : growth T s.heap.a n = .realloc cap bytes)
    (hs : minHeapRevserse T realloc n s = (s', 0)) : s'.heap.a = cap := by
  rw [minHeapRevserse, hg] at hs
  dsimp only at hs
  split at hs
  · obtain ⟨rfl, -⟩ := Prod.mk.inj hs
    rfl
  · exact absurd (Prod.mk.inj hs).2 (by omega)

/-- `min_heap_revserse_` asks `mm_realloc` for a block of this size: what it does depends on whether
there is one. -/
def Asks (T : SizeT) (n : ℕ) (s : Store E) (bytes : ℕ) : Prop :=
  ∃ realloc realloc' : ℕ → Bool, (∀ b, b ≠ bytes → realloc b = realloc' b) ∧
    minHeapRevserse T realloc n s ≠ minHeapRevserse T realloc' n s

/-- It asks for the block on which it has decided, and for no other. -/
lemma asks_iff : Asks T n s bytes ↔ ∃ cap, growth T s.heap.a n = .realloc cap bytes := by
  constructor
  · rintro ⟨realloc, realloc', hsame, hne⟩
    unfold minHeapRevserse at hne
    cases hg : growth T s.heap.a n with
    | enough => exact absurd rfl (hg ▸ hne)
    | tooLarge => exact absurd rfl (hg ▸ hne)
    | realloc cap b =>
      rw [hg] at hne
      have hb : b = bytes := by
        by_contra hb
        exact hne (by dsimp only; rw [hsame b hb])
      exact ⟨cap, by rw [hb]⟩
  · rintro ⟨cap, hg⟩
    refine ⟨fun _ => true, fun b => b != bytes, fun b hb => (bne_iff_ne.2 hb).symm, fun h => ?_⟩
    simp only [minHeapRevserse, hg, bne_self_eq_false, if_true, Bool.false_eq_true, if_false] at h
    have hcode : (0 : ℤ) = -1 := congrArg Prod.snd h
    omega

variable [DecidableEq E]

variable (T realloc e) in
/-- A push fails and changes nothing, or goes on in a heap that has grown. -/
lemma minHeapPush_cases (hn : s.heap.n < 2 ^ 32) (ha : s.heap.a < 2 ^ 32) :
    (s.heap.n = 2 ^ 32 - 1 ∨ minHeapRevserse T realloc (s.heap.n + 1) s = (s, -1)) ∧
        minHeapPush T realloc e s = some (s, -1) ∨
      ∃ s₁, minHeapRevserse T realloc (s.heap.n + 1) s = (s₁, 0) ∧ Grown (s.heap.n + 1) s s₁ ∧
        minHeapPush T realloc e s =
          (minHeapShiftUp s.heap.n e
            { s₁ with heap := { s₁.heap with n := s.heap.n + 1 } }).map fun s' => (s', 0) := by
  by_cases hmax : s.heap.n = 2 ^ 32 - 1
  · exact Or.inl ⟨Or.inl hmax, if_pos hmax⟩
  have hsucc : toUInt32 ((s.heap.n : ℤ) + 1) = s.heap.n + 1 :=
    toUInt32_natCast (x := s.heap.n + 1) (by omega)
  rw [minHeapPush, if_neg hmax, hsucc]
  rcases minHeapRevserse_cases T realloc (by omega : s.heap.n + 1 < 2 ^ 32) ha
    with hr | ⟨s₁, hr, hg⟩
  · refine Or.inl ⟨Or.inr hr, ?_⟩
    rw [hr]
    rfl
  · refine Or.inr ⟨s₁, hr, hg, ?_⟩
    rw [hr]
    dsimp only
    rw [if_neg (by omega), hg.heap_n, hsucc]
    cases minHeapShiftUp s.heap.n e { s₁ with heap := { s₁.heap with n := s.heap.n + 1 } } <;> rfl

/-- **A push that fails changes nothing, and one that succeeds has room.**  What `mm_realloc` is
asked for is the new capacity in bytes, not reduced. -/
theorem minHeapPush_capacity (T : SizeT) (realloc : ℕ → Bool) (e : E) (s : Store E)
    (hle : s.heap.n ≤ s.heap.a) (ha : s.heap.a < 2 ^ 32) :
    (∀ bytes, Asks T (toUInt32 (s.heap.n + 1)) s bytes →
      ∃ a, growth T s.heap.a (toUInt32 (s.heap.n + 1)) = .realloc a bytes ∧
        bytes = a * T.ptrSize ∧ bytes < T.card) ∧
    ∀ s' c, minHeapPush T realloc e s = some (s', c) →
      (c = 0 ∨ c = -1) ∧ (c = -1 → s' = s) ∧
        (c = 0 → s'.heap.n = s.heap.n + 1 ∧ s'.heap.n ≤ s'.heap.a ∧ s.heap.a ≤ s'.heap.a) ∧
          ∀ a bytes, growth T s.heap.a (toUInt32 (s.heap.n + 1)) = .realloc a bytes →
            bytes = a * T.ptrSize ∧ bytes < T.card ∧ (c = 0 → s'.heap.a = a) := by
  have hbytes : ∀ a bytes, growth T s.heap.a (toUInt32 (s.heap.n + 1)) = .realloc a bytes →
      bytes = a * T.ptrSize ∧ bytes < T.card := by
    intro a bytes
    exact growth_exact (toUInt32_lt _)
  refine ⟨fun bytes hasks => ?_, fun s' c hs' => ?_⟩
  · obtain ⟨a, hg⟩ := asks_iff.1 hasks
    exact ⟨a, hg, hbytes a bytes hg⟩
  rcases minHeapPush_cases T realloc e (by omega : s.heap.n < 2 ^ 32) ha
    with ⟨-, hs⟩ | ⟨s₁, hr, hg, hs⟩
  · rw [hs] at hs'
    obtain ⟨rfl, rfl⟩ := Prod.mk.inj (Option.some.inj hs')
    refine ⟨Or.inr rfl, fun _ => rfl, fun h => by omega, fun a bytes h => ?_⟩
    exact ⟨(hbytes a bytes h).1, (hbytes a bytes h).2, fun h => by omega⟩
  · rw [hs, Option.map_eq_some_iff] at hs'
    obtain ⟨s₂, hs₂, heq⟩ := hs'
    obtain ⟨rfl, rfl⟩ := Prod.mk.inj heq
    have hc := copied_of_minHeapShiftUp hs₂
    have hn' : s₂.heap.n = s.heap.n + 1 := hc.heap_n
    have ha' : s₂.heap.a = s₁.heap.a := hc.heap_a
    have hroom := hg.le
    have hgrow := hg.a_le
    refine ⟨Or.inl rfl, fun h => by omega, fun _ => ⟨hn', by omega, by omega⟩, fun a bytes h => ?_⟩
    have hsucc : toUInt32 ((s.heap.n : ℤ) + 1) = s.heap.n + 1 := by
      have hlt := hg.lt
      exact toUInt32_natCast (x := s.heap.n + 1) (by omega)
    refine ⟨(hbytes a bytes h).1, (hbytes a bytes h).2, fun _ => ?_⟩
    rw [hsucc] at h
    rw [ha']
    exact revserse_a_of_growth h hr

/-- A full heap of one event is doubled. -/
theorem minHeapPush_capacity_full :
    ∃ s', minHeapPush .bits64 (fun _ => true) 1 (heapOf [0] 1) = some (s', 0) ∧
      s'.heap.n = 2 ∧ s'.heap.a = 2 := by
  have hrun : (minHeapPush .bits64 (fun _ => true) 1 (heapOf [0] 1)).map Prod.snd = some 0 := by
    rfl
  obtain ⟨⟨s', c⟩, hs', rfl⟩ := Option.map_eq_some_iff.1 hrun
  obtain ⟨-, -, hok, hbytes⟩ := (minHeapPush_capacity .bits64 (fun _ => true) 1 (heapOf [0] 1)
    (by decide) (by decide)).2 s' 0 hs'
  exact ⟨s', hs', (hok rfl).1, (hbytes 2 16 (by decide)).2.2 rfl⟩

/-! ## Positions -/

/-- The position `i` can be kept in `min_heap_idx`, an `int`. -/
structure PositionRight (i : ℕ) : Prop where
  ne_stop : toInt32 i ≠ -1
  pos_iff : 0 < toInt32 i ↔ 0 < i
  back : toUInt32 (toInt32 i) = i

lemma positionRight_iff (hi : i < 2 ^ 32) : PositionRight i ↔ i < 2 ^ 31 := by
  constructor
  · intro hp
    by_contra hge
    have hneg : toInt32 i < 0 := by
      unfold toInt32 Int.bmod
      dsimp only
      split <;> omega
    have hpos := hp.pos_iff.2 (by omega)
    omega
  · intro hlt
    have hint := toInt32_natCast hlt
    exact ⟨by omega, by omega, by rw [hint, toUInt32_natCast hi]⟩

/-- So all positions of a heap of `n` cells can be kept if there are no more than 2147483648. -/
lemma positions_right_iff (hn : n < 2 ^ 32) : (∀ i < n, PositionRight i) ↔ n ≤ 2 ^ 31 := by
  constructor
  · intro h
    by_contra hlt
    have hi := (positionRight_iff (by omega)).1 (h (2 ^ 31) (by omega))
    omega
  · intro hle i hi
    exact (positionRight_iff (by omega)).2 (by omega)

/-! ## The holes of the loops -/

/-- The index that is computed for the parent is that of the parent. -/
def ParentExact (h : ℕ) : Prop := (parentIdx h : ℤ) = ((h : ℤ) - 1) / 2

/-- The index that is computed for the right child is that of the right child. -/
def ChildExact (h : ℕ) : Prop := (childIdx h : ℤ) = ((h : ℤ) + 1) * 2

lemma parentExact_iff (hh : h < 2 ^ 32) : ParentExact h ↔ h ≠ 0 := by
  unfold ParentExact parentIdx toUInt32
  omega

lemma childExact_iff (hh : h < 2 ^ 32) : ChildExact h ↔ h < 2 ^ 31 - 1 := by
  unfold ChildExact childIdx toUInt32
  omega

/-- A round of the loop of `min_heap_shift_up_`. -/
def shiftUpRound (e : E) (r : ℕ × Store E) : Option (ℕ × Store E ⊕ Store E × ℕ) := do
  let (hole, s) := r
  let again ← parentGreater hole e s
  if again then
    let s ← s.put (parentIdx hole) e hole
    some (.inl (parentIdx hole, s))
  else some (.inr (s, hole))

/-- A round of the loop of `min_heap_shift_up_unconditional_`. -/
def shiftUpUnconditionalRound (e : E) (r : ℕ × Store E) :
    Option (ℕ × Store E ⊕ Store E × ℕ) := do
  let (hole, s) := r
  let x ← s.cell (parentIdx hole)
  let s ← s.put hole x hole
  let hole := parentIdx hole
  let again ← parentGreater hole e s
  if again then some (.inl (hole, s)) else some (.inr (s, hole))

/-- A round of the loop of `min_heap_shift_down_`. -/
def shiftDownRound (e : E) (r : ℕ × ℕ × Store E) :
    Option (ℕ × ℕ × Store E ⊕ Store E × ℕ × ℕ) :=
  let (hole, minChild, s) := r
  if minChild ≤ s.heap.n then do
    let minChild ← chooseChild minChild s
    let y ← s.cell minChild
    if minHeapElemGreater e y s then
      let s ← s.put hole y hole
      some (.inl (minChild, childIdx minChild, s))
    else some (.inr (s, hole, minChild))
  else some (.inr (s, hole, minChild))

/-- The loops consist of these rounds. -/
lemma shiftUpLoop_eq_runLoop :
    ∀ {fuel h : ℕ} {s : Store E},
      shiftUpLoop fuel h e s = runLoop (shiftUpRound e) fuel (h, s) := by
  intro fuel
  induction fuel with
  | zero => intro h s; rfl
  | succ fuel ih =>
    intro h s
    rw [shiftUpLoop, runLoop, shiftUpRound]
    cases parentGreater h e s with
    | none => rfl
    | some again =>
      cases again with
      | false => rfl
      | true =>
        simp only [Option.bind_eq_bind, Option.bind_some, if_true]
        cases s.put (parentIdx h) e h with
        | none => rfl
        | some s₁ => exact ih

lemma shiftUpUnconditionalLoop_eq_runLoop :
    ∀ {fuel h : ℕ} {s : Store E}, shiftUpUnconditionalLoop fuel h e s =
      runLoop (shiftUpUnconditionalRound e) fuel (h, s) := by
  intro fuel
  induction fuel with
  | zero => intro h s; rfl
  | succ fuel ih =>
    intro h s
    rw [shiftUpUnconditionalLoop, runLoop, shiftUpUnconditionalRound]
    simp only [Option.bind_eq_bind]
    cases s.cell (parentIdx h) with
    | none => rfl
    | some x =>
      rw [Option.bind_some, Option.bind_some]
      cases s.put h x h with
      | none => rfl
      | some s₁ =>
        rw [Option.bind_some, Option.bind_some]
        cases parentGreater (parentIdx h) e s₁ with
        | none => rfl
        | some again =>
          cases again with
          | false => rfl
          | true => exact ih

lemma shiftDownLoop_eq_runLoop :
    ∀ {fuel h m : ℕ} {s : Store E}, shiftDownLoop fuel h m e s =
      runLoop (shiftDownRound e) fuel (h, m, s) := by
  intro fuel
  induction fuel with
  | zero => intro h m s; rfl
  | succ fuel ih =>
    intro h m s
    rw [shiftDownLoop, runLoop, shiftDownRound]
    split_ifs
    · simp only [Option.bind_eq_bind]
      cases chooseChild m s with
      | none => rfl
      | some c =>
        rw [Option.bind_some, Option.bind_some]
        cases s.cell c with
        | none => rfl
        | some y =>
          rw [Option.bind_some, Option.bind_some]
          split_ifs
          · cases s.put h y h with
            | none => rfl
            | some s₁ => exact ih
          · rfl
    · rfl

/-- The holes of whose parents `min_heap_shift_up_` uses the index: all that it has at the head of
its loop. -/
def shiftUpHoles (fuel hole : ℕ) (e : E) (s : Store E) : List ℕ :=
  (loopHeads (shiftUpRound e) fuel (hole, s)).map Prod.fst

/-- The holes of whose parents a round of `min_heap_shift_up_unconditional_` uses the index: the one
it begins with, and the one it goes to, unless that is the root. -/
def unconditionalUses (r : ℕ × Store E) : List ℕ :=
  let (hole, s) := r
  hole ::
    if parentIdx hole ≠ 0 ∧ ((s.cell (parentIdx hole)).bind fun x => s.put hole x hole).isSome then
      [parentIdx hole]
    else []

/-- The holes of whose parents `min_heap_shift_up_unconditional_` uses the index. -/
def shiftUpUnconditionalHoles (fuel hole : ℕ) (e : E) (s : Store E) : List ℕ :=
  (loopHeads (shiftUpUnconditionalRound e) fuel (hole, s)).flatMap unconditionalUses

/-- The holes of whose right children `min_heap_shift_down_` uses the index: all that it has at the
head of its loop. -/
def shiftDownHoles (fuel hole : ℕ) (e : E) (s : Store E) : List ℕ :=
  (loopHeads (shiftDownRound e) fuel (hole, childIdx hole, s)).map Prod.fst

lemma shiftUpHoles_succ : shiftUpHoles (fuel + 1) h e s =
    h ::
      if parentGreater h e s = some true then
        match s.put (parentIdx h) e h with
        | some s => shiftUpHoles fuel (parentIdx h) e s
        | none => []
      else [] := by
  rw [shiftUpHoles, loopHeads, List.map_cons, shiftUpRound]
  cases parentGreater h e s with
  | none => rfl
  | some again =>
    cases again with
    | false => rfl
    | true =>
      simp only [Option.bind_eq_bind, Option.bind_some, if_true]
      cases s.put (parentIdx h) e h with
      | none => rfl
      | some s₁ => rfl

lemma shiftDownHoles_succ : shiftDownHoles (fuel + 1) h e s =
    h ::
      if childIdx h ≤ s.heap.n then
        match (chooseChild (childIdx h) s).bind fun c => (s.cell c).map fun y => (c, y) with
        | some (c, y) =>
          if minHeapElemGreater e y s then
            match s.put h y h with
            | some s => shiftDownHoles fuel c e s
            | none => []
          else []
        | none => []
      else [] := by
  rw [shiftDownHoles, loopHeads, List.map_cons, shiftDownRound]
  dsimp only
  split_ifs
  · simp only [Option.bind_eq_bind]
    cases chooseChild (childIdx h) s with
    | none => rfl
    | some c =>
      rw [Option.bind_some, Option.bind_some]
      cases s.cell c with
      | none => rfl
      | some y =>
        rw [Option.bind_some, Option.map_some]
        dsimp only
        split_ifs
        · cases s.put h y h with
          | none => rfl
          | some s₁ => rfl
        · rfl
  · rfl

/-- On the way up only the index at the root is wrong. -/
lemma shiftUpHoles_exact_iff :
    ∀ {fuel h : ℕ} {s : Store E}, h < 2 ^ 32 → h < fuel →
      (∀ i, Above i h → ∃ e, s.cell i = some e) →
        ((∀ j ∈ shiftUpHoles fuel h x s, ParentExact j) ↔
          ¬ Climbs s.key (s.ev x).evTimeout h) := by
  intro fuel
  induction fuel with
  | zero => intro h s _ hf; omega
  | succ fuel ih =>
    intro h s hh hf hfill
    rw [shiftUpHoles_succ, List.forall_mem_cons, parentExact_iff hh]
    rcases Nat.eq_zero_or_pos h with rfl | h0
    · exact iff_of_false (fun h => h.1 rfl) (not_not.2 climbs_zero)
    have hlt := parent_lt h0
    obtain ⟨y, hy⟩ := hfill (parent h) (.parent h0)
    rw [and_iff_right h0.ne', parentGreater_of_cell h0 hh hy, climbs_iff h0]
    simp only [Option.some.injEq, decide_eq_true_eq]
    by_cases hgo : (s.ev x).evTimeout < s.key (parent h)
    · obtain ⟨s₁, hs₁, -, hfill₁, hclimbs⟩ := exists_put_parent (x := x) h0 hfill
      rw [if_pos hgo, parentIdx_eq h0 hh, hs₁, and_iff_right hgo]
      dsimp only
      rw [ih (by omega) (by omega) hfill₁, hclimbs]
    · rw [if_neg hgo]
      exact iff_of_true (fun j hj => absurd hj List.not_mem_nil) fun h => hgo h.1

/-- The loop that only erase and adjust use does not use the index at the root. -/
lemma shiftUpUnconditionalHoles_ne_zero (h0 : h ≠ 0) (hh : h < 2 ^ 32) :
    ∀ j ∈ shiftUpUnconditionalHoles fuel h e s, j ≠ 0 ∧ j < 2 ^ 32 := by
  have hpar : ∀ h, parentIdx h < 2 ^ 32 := fun h =>
    (Nat.div_le_self _ 2).trans_lt (toUInt32_lt _)
  have hround : ∀ r r' : ℕ × Store E, r.1 ≠ 0 ∧ r.1 < 2 ^ 32 →
      shiftUpUnconditionalRound e r = some (.inl r') → r'.1 ≠ 0 ∧ r'.1 < 2 ^ 32 := by
    rintro ⟨h, s⟩ r' - hr'
    simp only [shiftUpUnconditionalRound, Option.bind_eq_bind, Option.bind_eq_some_iff] at hr'
    obtain ⟨x, -, s₁, -, again, hgo, hr'⟩ := hr'
    cases again with
    | false => cases hr'
    | true =>
      obtain rfl := Sum.inl.inj (Option.some.inj hr')
      exact ⟨(pos_of_parentGreater hgo).ne', hpar h⟩
  intro j hj
  obtain ⟨r, hr, hj⟩ := List.mem_flatMap.1 hj
  have hinv := forall_mem_loopHeads (fun r : ℕ × Store E => r.1 ≠ 0 ∧ r.1 < 2 ^ 32) hround
    ⟨h0, hh⟩ r hr
  rcases List.mem_cons.1 hj with rfl | hj
  · exact hinv
  · split_ifs at hj with hgo
    · obtain rfl := List.mem_singleton.1 hj
      exact ⟨hgo.1, hpar _⟩
    · cases hj

/-- On the way down the index is wrong where the child's is 4294967296 or more. -/
lemma shiftDownHoles_exact_iff :
    ∀ {fuel h : ℕ} {s : Store E}, s.heap.n = n → Filled s n → h ≤ n → n < 2 ^ 32 →
      n < fuel + h →
        ((∀ j ∈ shiftDownHoles fuel h x s, ChildExact j) ↔
          ∀ j, SinksTo s.key n (s.ev x).evTimeout h j → j < 2 ^ 31 - 1) := by
  intro fuel
  induction fuel with
  | zero => intro h s _ _ _ _ hf; omega
  | succ fuel ih =>
    intro h s hsn hfill hhn hn hf
    rw [shiftDownHoles_succ, List.forall_mem_cons, childExact_iff (by omega)]
    by_cases hlt : h < 2 ^ 31 - 1
    swap
    · exact iff_of_false (fun h => hlt h.1) fun h' => hlt (h' h .refl)
    rw [and_iff_right hlt, childIdx_eq hlt, hsn]
    by_cases hle : 2 * h + 2 ≤ n
    swap
    · rw [if_neg hle]
      refine iff_of_true (fun j hj => absurd hj List.not_mem_nil) fun j hj => ?_
      rw [(sinksTo_leaf_iff (not_le.1 hle)).1 hj]
      exact hlt
    have hcn := minChild_lt (k := s.key) hle
    have hhc := lt_minChild s.key n h
    obtain ⟨y, hy⟩ := hfill _ hcn
    rw [if_pos hle, chooseChild_eq (hsn ▸ hfill) hlt (by omega), hsn]
    simp only [Option.bind_some, hy, Option.map_some, minHeapElemGreater_iff]
    rw [← key_of_cell hy]
    by_cases hgo : s.key (minChild s.key n h) < (s.ev x).evTimeout
    · obtain ⟨s₁, hs₁, hp⟩ :=
        exists_put (s := s) (e := y) (v := h) (by have := hfill.le_size; omega : h < s.size)
      have hkey : ∀ j, minChild s.key n h < j → j < n → s₁.key j = s.key j := by
        intro j hj _
        rw [hp.key, Function.update_of_ne (by omega)]
      rw [if_pos hgo, hs₁]
      dsimp only
      rw [ih (hp.heap_n.trans hsn) (hp.filled hfill) hcn.le hn (by omega), hp.timeout]
      constructor
      · intro h' j hj
        rcases (sinksTo_iff hle).1 hj with rfl | ⟨-, hj⟩
        · exact hlt
        · exact h' j (hj.congr hkey)
      · intro h' j hj
        have hback : SinksTo s.key n (s.ev x).evTimeout (minChild s.key n h) j → j < 2 ^ 31 - 1 :=
          fun hs => h' j ((sinksTo_iff hle).2 (Or.inr ⟨hgo, hs⟩))
        exact hback (hj.congr fun i hi hin => (hkey i hi hin).symm)
    · rw [if_neg hgo]
      refine iff_of_true (fun j hj => absurd hj List.not_mem_nil) fun j hj => ?_
      rcases (sinksTo_iff hle).1 hj with rfl | ⟨hgo', -⟩
      · exact hlt
      · exact absurd hgo' hgo

/-- **Positions are kept right in heaps of up to 2147483648 cells, and the indices of parents
and children are right where the hole is not the root, or is below 2147483647.** -/
theorem indices_exact_iff (s : Store E) (e : E) (hn : s.heap.n < 2 ^ 32)
    (hf : Filled s s.heap.n) :
    ((∀ i < s.heap.n, PositionRight i) ↔ s.heap.n ≤ 2 ^ 31) ∧
      ∀ h ≤ s.heap.n,
        ((∀ j ∈ shiftUpHoles loopFuel h e s, ParentExact j) ↔
          ¬ Climbs s.key (s.ev e).evTimeout h) ∧
        ((∀ j ∈ shiftUpUnconditionalHoles loopFuel h e s, ParentExact j) ↔ h ≠ 0) ∧
        ((∀ j ∈ shiftDownHoles loopFuel h e s, ChildExact j) ↔
          ∀ j, SinksTo s.key s.heap.n (s.ev e).evTimeout h j → j < 2 ^ 31 - 1) := by
  refine ⟨positions_right_iff hn, fun h hle => ⟨?_, ?_, ?_⟩⟩
  · refine shiftUpHoles_exact_iff (by omega) (lt_loopFuel (by omega)) fun i hi => hf i ?_
    have hlt := hi.lt
    omega
  · constructor
    · intro hall
      exact (parentExact_iff (by omega)).1 (hall h (List.mem_cons_self ..))
    · intro h0 j hj
      obtain ⟨hj0, hlt⟩ := shiftUpUnconditionalHoles_ne_zero h0 (by omega) j hj
      exact (parentExact_iff hlt).2 hj0
  · exact shiftDownHoles_exact_iff rfl hf hle hn
      ((lt_loopFuel hn).trans_le (Nat.le_add_right _ h))

/-- The position 2147483648 is kept as a negative number, and a push into an empty heap uses
2147483647 for the parent of the root. -/
theorem index_wraps :
    ¬ PositionRight (2 ^ 31) ∧
      ¬ ∀ j ∈ shiftUpHoles loopFuel 0 0 (heapOf [] 8), ParentExact j := by
  constructor
  · rw [positionRight_iff (by omega)]
    omega
  · intro h
    have hroot : ParentExact 0 := h 0 (List.mem_cons_self ..)
    exact (parentExact_iff (by omega)).1 hroot rfl

/-- An event of time 0 does not come to the root where that has time 0 as well, and comes there
where it has a later time. -/
theorem indices_exact_iff_three :
    (∀ j ∈ shiftUpHoles loopFuel 3 7 (heapOf [0, 2, 3] 8), ParentExact j) ∧
      ¬ ∀ j ∈ shiftUpHoles loopFuel 3 7 (heapOf [1, 2, 3] 8), ParentExact j := by
  have hv : Valid (heapOf [0, 2, 3] 8) := valid_heapOf (by decide)
  have hv' : Valid (heapOf [1, 2, 3] 8) := valid_heapOf (by decide)
  rw [((indices_exact_iff (heapOf [0, 2, 3] 8) 7 (by decide) hv.filled).2 3 (le_refl _)).1,
    ((indices_exact_iff (heapOf [1, 2, 3] 8) 7 (by decide) hv'.filled).2 3 (le_refl _)).1,
    hv.order.climbs_iff (i := 3) (by omega) (le_refl 3),
    hv'.order.climbs_iff (i := 3) (by omega) (le_refl 3)]
  decide

end LibeventLearn.Event2
