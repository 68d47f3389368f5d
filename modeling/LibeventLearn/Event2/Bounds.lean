import LibeventLearn.Event2.Fence
import LibeventLearn.Event2.PushPop
import LibeventLearn.Event2.Repair

/-!
# The cells that the operations touch

An operation of a valid heap should read live cells only, or cells that it has filled itself,
and store inside of the block: it should be defined on the fenced heap.  This file says for each
operation on which heaps that is so.
-/

namespace LibeventLearn.Event2

open Lib

variable {E : Type}

/-- The calls of the operations.  The time given with a member is what the caller has put into
its `ev_timeout` beforehand. -/
inductive HeapCall (E : Type) where
  | top
  | push (e : E)
  | pop
  | erase (e : E) (evTimeout : Timeval)
  | adjust (e : E) (evTimeout : Timeval)

variable {T : SizeT} {s t : Store E} {e x : E} {i j n : ℕ} {u : Timeval}

/-- An event that is pushed is no member, and one that is erased or adjusted is. -/
def HeapCall.Called (s : Store E) : HeapCall E → Prop
  | .top => True
  | .push e => ¬ Live s e
  | .pop => True
  | .erase e _ => Live s e
  | .adjust e _ => Live s e

variable [DecidableEq E]

/-- The call, with every `mm_realloc` succeeding. -/
def HeapCall.run (T : SizeT) : HeapCall E → Store E → Option (Store E)
  | .top, s => (minHeapTop s).map fun _ => s
  | .push e, s => (minHeapPush T (fun _ => true) e s).map Prod.fst
  | .pop, s => (minHeapPop s).map Prod.fst
  | .erase e t, s => (minHeapErase e (s.setTimeout e t)).map Prod.fst
  | .adjust e t, s => (minHeapAdjust T (fun _ => true) e (s.setTimeout e t)).map Prod.fst

/-- The call reads only live cells and ones that it has filled, stores only in the block, and
dereferences no NULL. -/
def HeapCall.Safe (T : SizeT) (c : HeapCall E) (s : Store E) : Prop := c.run T s.fenced ≠ none

/-- A safe call does the same on the heap as it is. -/
theorem HeapCall.run_of_safe (c : HeapCall E) (h : c.Safe T s) :
    ∃ t t', c.run T s.fenced = some t ∧ c.run T s = some t' ∧ Covers t t' := by
  obtain ⟨t, ht⟩ := Option.ne_none_iff_exists'.1 h
  refine ⟨t, ?_⟩
  cases c with
  | top =>
    obtain ⟨q, hq, rfl⟩ := Option.map_eq_some_iff.1 ht
    exact ⟨s, ht, by rw [HeapCall.run, covers_fenced.minHeapTop hq]; rfl, covers_fenced⟩
  | push e =>
    obtain ⟨⟨t, r⟩, hq, rfl⟩ := Option.map_eq_some_iff.1 ht
    obtain ⟨t', hq', hc⟩ := covers_fenced.minHeapPush hq
    exact ⟨t', ht, by rw [HeapCall.run, hq']; rfl, hc⟩
  | pop =>
    obtain ⟨⟨t, q⟩, hq, rfl⟩ := Option.map_eq_some_iff.1 ht
    obtain ⟨t', hq', hc⟩ := covers_fenced.minHeapPop hq
    exact ⟨t', ht, by rw [HeapCall.run, hq']; rfl, hc⟩
  | erase e u =>
    obtain ⟨⟨t, r⟩, hq, rfl⟩ := Option.map_eq_some_iff.1 ht
    obtain ⟨t', hq', hc⟩ := (covers_fenced (s := s.setTimeout e u)).minHeapErase hq
    exact ⟨t', ht, by rw [HeapCall.run, hq']; rfl, hc⟩
  | adjust e u =>
    obtain ⟨⟨t, r⟩, hq, rfl⟩ := Option.map_eq_some_iff.1 ht
    obtain ⟨t', hq', hc⟩ := (covers_fenced (s := s.setTimeout e u)).minHeapAdjust hq
    exact ⟨t', ht, by rw [HeapCall.run, hq']; rfl, hc⟩

/-- How many elements a full heap must have for the index 2147483647 to be in the block that it
is given, or for there to be none. -/
def SizeT.largeFull : SizeT → ℕ
  | .bits32 => 2 ^ 29
  | .bits64 => 2 ^ 30

/-- When the call is safe. -/
def HeapCall.InRange (T : SizeT) (s : Store E) : HeapCall E → Prop
  | .top => s.heap.n ≠ 0
  | .push e =>
    2 ^ 31 ≤ s.heap.a ∨ (s.heap.a = s.heap.n ∧ T.largeFull ≤ s.heap.n) ∨
      (s.heap.n ≠ 0 ∧ s.key 0 ≤ (s.ev e).evTimeout)
  | .pop => s.heap.n = 0
  | .erase e t =>
    let k := (s.setTimeout e t).key
    ∀ i < s.heap.n, s.cell i = some e →
      (0 < i ∧ k (s.heap.n - 1) < k (parent i)) ∨
        ∀ h, SinksTo k (s.heap.n - 1) (k (s.heap.n - 1)) i h → s.heap.n - 1 < 2 * h + 2 →
          2 * h + 2 < s.heap.a
  | .adjust e t =>
    let k := (s.setTimeout e t).key
    ∀ i < s.heap.n, s.cell i = some e →
      (0 < i ∧ t < k (parent i)) ∨
        ∀ h, SinksTo k s.heap.n t i h → s.heap.n < 2 * h + 2 → 2 * h + 2 < s.heap.a

/-! ## Each operation -/

omit [DecidableEq E] in
lemma top_safe_iff : minHeapTop s.fenced ≠ none ↔ s.heap.n ≠ 0 := by
  rcases eq_or_ne s.heap.n 0 with hn | hn
  · rw [minHeapTop_of_eq_zero (s := s.fenced) hn, fenced_cell_of_le (by omega)]
    exact iff_of_false (fun h => h rfl) (not_not.2 hn)
  · rw [minHeapTop_of_ne_zero (s := s.fenced) hn]
    exact iff_of_true (Option.some_ne_none _) hn

lemma pop_safe_iff : minHeapPop s.fenced ≠ none ↔ s.heap.n = 0 := by
  rcases eq_or_ne s.heap.n 0 with hn | hn
  · rw [minHeapPop_of_eq_zero (s := s.fenced) hn]
    exact iff_of_true (Option.some_ne_none _) hn
  · rw [minHeapPop_of_ne_zero (s := s.fenced) hn]
    exact iff_of_false (fun h => h rfl) hn

/-- Upwards, erasing stays inside, also where the event is the last one and has a new time. -/
lemma erase_safe_iff (hp : Placed s) (hi : i < s.heap.n) (hc : s.cell i = some e)
    (hx : s.cell (s.heap.n - 1) = some x) :
    minHeapErase e s ≠ none ↔
      (0 < i ∧ (s.ev x).evTimeout < s.key (parent i)) ∨ LeafFits s.shrink x i := by
  have hn := hp.n_le_int
  rw [minHeapErase_eq hp hi hc hx]
  by_cases hup : 0 < i ∧ (s.ev x).evTimeout < s.key (parent i)
  · rw [if_pos hup]
    refine iff_of_true ?_ (Or.inl hup)
    have hholed : ∃ m ≤ 2 ^ 31, Holed s.shrink m i x := by
      rcases eq_or_ne i (s.heap.n - 1) with rfl | hne
      · obtain rfl : e = x := Option.some.inj (hc.symm.trans hx)
        obtain ⟨h1, h2, h3⟩ := hp.holed hi hc
        exact ⟨s.heap.n, hn, h1, h2, h3⟩
      · exact ⟨s.heap.n - 1, by omega, hp.holed_shrink (by omega) hx⟩
    obtain ⟨m, hm, hd⟩ := hholed
    obtain ⟨s', hs', -⟩ := minHeapShiftUpUnconditional_spec hd hup.1 hm
    rw [hs']
    exact Option.some_ne_none _
  · rw [if_neg hup, or_iff_right hup,
      ← shiftDown_ne_none_iff hp.shrink (by rw [shrink_n]; omega) (by omega)]
    exact not_congr Option.map_eq_none_iff

lemma adjust_safe_iff {realloc : ℕ → Bool} (hp : Placed s) (hi : i < s.heap.n)
    (hc : s.cell i = some e) :
    minHeapAdjust T realloc e s ≠ none ↔
      (0 < i ∧ (s.ev e).evTimeout < s.key (parent i)) ∨ LeafFits s e i := by
  have hn := hp.n_le_int
  rw [minHeapAdjust_eq hp hi hc]
  by_cases hup : 0 < i ∧ (s.ev e).evTimeout < s.key (parent i)
  · obtain ⟨s', hs', -⟩ := minHeapShiftUpUnconditional_spec (hp.holed hi hc) hup.1 hn
    rw [if_pos hup, hs']
    exact iff_of_true (Option.some_ne_none _) (Or.inl hup)
  · rw [if_neg hup, or_iff_right hup, ← shiftDown_ne_none_iff hp hi.le (by omega)]
    exact not_congr Option.map_eq_none_iff

/-! ### Pushing -/

omit [DecidableEq E] in
/-- A full heap is doubled, or gets 8 cells. -/
lemma newCapacity_full (hn : n < 2 ^ 31) :
    (n = 0 ∧ newCapacity n (n + 1) = 8) ∨ (n ≠ 0 ∧ newCapacity n (n + 1) = 2 * n) := by
  unfold newCapacity toUInt32
  dsimp only
  split <;> split <;> omega

omit [DecidableEq E] in
lemma growth_tooLarge {a : ℕ} (hg : growth T a n = .tooLarge) :
    T = .bits32 ∧ 2 ^ 30 ≤ newCapacity a n := by
  rw [growth] at hg
  split at hg
  · cases T with
    | bits32 =>
      dsimp only at hg
      split at hg
      · rename_i hbig
        refine ⟨rfl, ?_⟩
        simp only [SizeT.card, SizeT.ptrSize] at hbig
        omega
      · cases hg
    | bits64 => cases hg
  · cases hg

omit [DecidableEq E] in
/-- Whether room for one more makes the index 2147483647 one of the block. -/
lemma revserse_large (hle : s.heap.n ≤ s.heap.a) (hn : s.heap.n < 2 ^ 31) :
    (minHeapRevserse T (fun _ => true) (s.heap.n + 1) s = (s, -1) ∧
        s.heap.a = s.heap.n ∧ T.largeFull ≤ s.heap.n) ∨
      ∃ s', minHeapRevserse T (fun _ => true) (s.heap.n + 1) s = (s', 0) ∧
        (2 ^ 31 ≤ s'.heap.a ↔
          2 ^ 31 ≤ s.heap.a ∨ s.heap.a = s.heap.n ∧ T.largeFull ≤ s.heap.n) := by
  rcases hle.lt_or_eq with hlt | heq
  · refine Or.inr ⟨s, ?_, (or_iff_left fun h => by omega).symm⟩
    rw [minHeapRevserse, growth_of_le (by omega)]
  · have hcap := newCapacity_full hn
    rcases growth_cases (T := T) (by omega : s.heap.a < s.heap.n + 1) (by omega) with hg | ⟨hg, hlt⟩
    · obtain ⟨rfl, hlarge⟩ := growth_tooLarge hg
      refine Or.inl ⟨by rw [minHeapRevserse, hg], heq.symm, ?_⟩
      rw [← heq] at hlarge
      simp only [SizeT.largeFull]
      omega
    · refine Or.inr ⟨_, by rw [minHeapRevserse, hg]; exact if_pos rfl, ?_⟩
      dsimp only
      rw [← heq] at hlt ⊢
      cases T with
      | bits32 =>
        simp only [SizeT.largeFull, SizeT.ptrSize, SizeT.card, true_and] at hlt ⊢
        omega
      | bits64 =>
        simp only [SizeT.largeFull, SizeT.ptrSize, SizeT.card, true_and] at hlt ⊢
        omega

/-- When there is room, a push ends with a store at the parent of the position that the event
comes to, which is the root if the event is the only or the smallest one. -/
lemma shiftUp_fenced_eq {s₁ : Store E} (hv : Valid s) (hn : s.heap.n < 2 ^ 31)
    (hg : Grown (s.heap.n + 1) s.fenced s₁) :
    ∃ (s₂ : Store E) (j : ℕ),
      minHeapShiftUp s.heap.n e { s₁ with heap := { s₁.heap with n := s.heap.n + 1 } } =
        s₂.put (parentIdx j) e j ∧ s₂.size = s₁.heap.a ∧ j ≤ s.heap.n ∧
      (j = 0 ↔ s.heap.n = 0 ∨ (s.ev e).evTimeout < s.key 0) := by
  have hp := hv.toPlaced.fenced
  have hcell : ∀ i < s.heap.n, s₁.cell i = s.cell i := by
    intro i hi
    have hle : s.fenced.size ≤ s₁.heap.a := hp.size.le.trans hg.a_le
    rw [hg.cell hle i (hi.trans_le hp.filled.le_size), fenced_cell hi]
  have hfill : ∀ i < s.heap.n, ∃ e, s₁.cell i = some e := by
    intro i hi
    obtain ⟨y, hy, -⟩ := hv.live i hi
    exact ⟨y, (hcell i hi).trans hy⟩
  have hev : s₁.ev = s.ev := hg.ev
  have hkey : ∀ i < s.heap.n, s₁.key i = s.key i := by
    intro i hi
    rw [Store.key, Store.key, hcell i hi, hev]
  obtain ⟨s₂, j, hshift, hcop, hjn, hroot, -⟩ :=
    minHeapShiftUp_spec (s := { s₁ with heap := { s₁.heap with n := s.heap.n + 1 } })
      (h := s.heap.n) (x := e) (by omega) fun i hi => hfill i hi.lt
  refine ⟨s₂, j, hshift, hcop.size.trans (hg.size hp.size), hjn, ?_⟩
  have hclimbs : j = 0 ↔ Climbs s₁.key (s.ev e).evTimeout s.heap.n := by
    rw [← hev]
    exact hroot
  rw [hclimbs, Climbs.congr hkey]
  rcases Nat.eq_zero_or_pos s.heap.n with hz | hpos
  · rw [hz]
    exact iff_of_true climbs_zero (Or.inl rfl)
  · rw [hv.order.climbs_iff hpos (le_refl _), or_iff_right hpos.ne']

/-- A push stores only at a parent, or at index 2147483647 if it comes to the root. -/
lemma push_safe_iff (hv : Valid s) (hn : s.heap.n < 2 ^ 31) :
    minHeapPush T (fun _ => true) e s.fenced ≠ none ↔
      2 ^ 31 ≤ s.heap.a ∨ (s.heap.a = s.heap.n ∧ T.largeFull ≤ s.heap.n) ∨
        (s.heap.n ≠ 0 ∧ s.key 0 ≤ (s.ev e).evTimeout) := by
  have hp := hv.toPlaced.fenced
  have hlarge := revserse_large (T := T) (s := s.fenced) hp.n_le hn
  have hn' : s.fenced.heap.n < 2 ^ 32 := by
    rw [fenced_n]
    omega
  rcases minHeapPush_cases T (fun _ => true) e hn' hp.a_lt
    with ⟨hmax | hfail, hpush⟩ | ⟨s₁, hs₁, hg, hpush⟩
  · rw [fenced_n] at hmax
    omega
  · rw [hpush]
    refine iff_of_true (Option.some_ne_none _) (Or.inr (Or.inl ?_))
    rcases hlarge with ⟨-, hfull⟩ | ⟨s', hs', -⟩
    · exact hfull
    · rw [hfail] at hs'
      exact absurd (Prod.mk.inj hs').2 (by omega)
  · have hlarge₁ : 2 ^ 31 ≤ s₁.heap.a ↔
        2 ^ 31 ≤ s.heap.a ∨ s.heap.a = s.heap.n ∧ T.largeFull ≤ s.heap.n := by
      rcases hlarge with ⟨hs', -⟩ | ⟨s', hs', hiff⟩
      · rw [hs₁] at hs'
        exact absurd (Prod.mk.inj hs').2 (by omega)
      · obtain rfl := (Prod.mk.inj (hs₁.symm.trans hs')).1
        exact hiff
    obtain ⟨s₂, j, hshift, hsize, hjn, hroot⟩ := shiftUp_fenced_eq (e := e) hv hn hg
    have hput : minHeapPush T (fun _ => true) e s.fenced =
        (s₂.put (parentIdx j) e j).map fun s' => (s', 0) := by
      rw [hpush, ← hshift]
      rfl
    rw [hput, ← or_assoc, ← hlarge₁, Ne, Option.map_eq_none_iff, ← Ne, put_ne_none_iff, hsize]
    rcases Nat.eq_zero_or_pos j with rfl | hpos
    · have hup := hroot.1 rfl
      rw [parentIdx_zero, or_iff_left fun h => (not_lt.2 h.2) (hup.resolve_left h.1)]
      omega
    · have hpar := parent_lt hpos
      have hroom : s.heap.n + 1 ≤ s₁.heap.a := hg.le
      have hstay := mt hroot.2 hpos.ne'
      rw [not_or, not_lt] at hstay
      rw [parentIdx_eq hpos (by omega)]
      exact iff_of_true (by omega) (Or.inr hstay)

/-! ### All of them -/

omit [DecidableEq E] in
/-- Only the keys of the live cells matter. -/
lemma leafFits_iff {k : ℕ → Timeval} (hk : ∀ j < s.heap.n, s.key j = k j) :
    LeafFits s x i ↔
      ∀ h, SinksTo k s.heap.n (s.ev x).evTimeout i h → s.heap.n < 2 * h + 2 →
        2 * h + 2 < s.heap.a := by
  constructor
  · intro hfits h hs
    exact hfits h (hs.congr fun j _ hj => hk j hj)
  · intro hfits h hs
    exact hfits h (hs.congr fun j _ hj => (hk j hj).symm)

lemma erase_fenced_iff (hp : Placed s) (hi : i < s.heap.n) (hc : s.cell i = some e) :
    minHeapErase e s.fenced ≠ none ↔
      (0 < i ∧ s.key (s.heap.n - 1) < s.key (parent i)) ∨
        ∀ h, SinksTo s.key (s.heap.n - 1) (s.key (s.heap.n - 1)) i h →
          s.heap.n - 1 < 2 * h + 2 → 2 * h + 2 < s.heap.a := by
  obtain ⟨x, hx, -⟩ := hp.live (s.heap.n - 1) (by omega)
  have hfits := leafFits_iff (s := s.fenced.shrink) (x := x) (i := i) (k := s.key) fun j hj =>
    fenced_key (by rw [shrink_n] at hj; exact hj.trans_le (Nat.sub_le _ _))
  have hx' : s.fenced.cell (s.heap.n - 1) = some x := (fenced_cell (by omega)).trans hx
  rw [erase_safe_iff hp.fenced hi ((fenced_cell hi).trans hc) hx', hfits, key_of_cell hx]
  exact or_congr_left (lt_parent_congr fun h0 => fenced_key ((parent_lt h0).trans hi))

lemma adjust_fenced_iff {realloc : ℕ → Bool} (hp : Placed s) (hi : i < s.heap.n)
    (hc : s.cell i = some e) :
    minHeapAdjust T realloc e s.fenced ≠ none ↔
      (0 < i ∧ (s.ev e).evTimeout < s.key (parent i)) ∨
        ∀ h, SinksTo s.key s.heap.n (s.ev e).evTimeout i h → s.heap.n < 2 * h + 2 →
          2 * h + 2 < s.heap.a := by
  have hfits := leafFits_iff (s := s.fenced) (x := e) (i := i) (k := s.key) fun j hj =>
    fenced_key hj
  rw [adjust_safe_iff hp.fenced hi ((fenced_cell hi).trans hc), hfits]
  exact or_congr_left (lt_parent_congr fun h0 => fenced_key ((parent_lt h0).trans hi))

/-- **The operations stay among the live cells and in the block in these cases, and in no
others.** -/
theorem safe_iff_inRange (T : SizeT) (hv : Valid s) (hn : s.heap.n < 2 ^ 31) (c : HeapCall E)
    (hcalled : c.Called s) : c.Safe T s ↔ c.InRange T s := by
  have hp := hv.toPlaced
  cases c with
  | top => exact (not_congr Option.map_eq_none_iff).trans top_safe_iff
  | push e => exact (not_congr Option.map_eq_none_iff).trans (push_safe_iff hv hn)
  | pop => exact (not_congr Option.map_eq_none_iff).trans pop_safe_iff
  | erase e u =>
    obtain ⟨i, hi, hc⟩ := hcalled
    have hp' := hp.setTimeout (e := e) (t := u)
    refine (not_congr Option.map_eq_none_iff).trans ((erase_fenced_iff hp' hi hc).trans ?_)
    rw [HeapCall.InRange, hp.forall_cell_iff hi hc]
    rfl
  | adjust e u =>
    obtain ⟨i, hi, hc⟩ := hcalled
    have hp' := hp.setTimeout (e := e) (t := u)
    have hself : ((s.setTimeout e u).ev e).evTimeout = u := by rw [setTimeout_ev_self]
    refine (not_congr Option.map_eq_none_iff).trans ((adjust_fenced_iff hp' hi hc).trans ?_)
    rw [hself, HeapCall.InRange, hp.forall_cell_iff hi hc]
    rfl

/-- The first push, and the question for the top of an empty heap. -/
theorem empty_unsafe :
    Valid (heapOf [] 8) ∧ ¬ (HeapCall.push 0).Safe .bits64 (heapOf [] 8) ∧
      ¬ HeapCall.top.Safe .bits64 (heapOf [] 8) :=
  ⟨valid_heapOf (by decide), fun h => h rfl, fun h => h rfl⟩

/-- Of a heap of three the top can be asked for, and an event of a smaller time cannot be
pushed. -/
theorem safe_iff_inRange_three :
    HeapCall.top.Safe .bits64 (heapOf [1, 2, 3] 3) ∧
      ¬ (HeapCall.push 7).Safe .bits64 (heapOf [1, 2, 3] 3) := by
  have hv : Valid (heapOf [1, 2, 3] 3) := valid_heapOf (by decide)
  have hno : ¬ Live (heapOf [1, 2, 3] 3) 7 := by
    rintro ⟨i, hi, hc⟩
    obtain rfl := eq_of_cell_heapOf hi hc
    exact absurd hi (by decide)
  rw [safe_iff_inRange .bits64 hv (by decide) .top trivial,
    safe_iff_inRange .bits64 hv (by decide) (.push 7) hno]
  simp only [HeapCall.InRange]
  decide

end LibeventLearn.Event2
