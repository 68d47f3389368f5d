import LibeventLearn.Event2.PushPop
import LibeventLearn.Event2.Repair

/-!
# Runs of the operations from a valid heap

Starting from a valid heap, whatever events are in it and however it came about, this file says
in which runs of the operations the heap goes on standing for the set that it should.  Each
operation has a condition on the heap before it.  Those of push, pop and top are hardly ever met;
adjust is right when the repair goes upwards, or ends in the cell it started from with a spare cell
behind, and erase in the second of these cases only, because upwards it returns the wrong code.

On the way, what no operation ever does to any heap, valid or not: it changes no `ev_timeout`,
and the header and the block only as it must.
-/

namespace LibeventLearn.Event2

open Lib

variable {E : Type} {T : SizeT} {realloc : ℕ → Bool} {s s' t : Store E} {e x y : E}
  {i j h c fuel : ℕ} {r : ℤ}

/-! ## What no operation does -/

/-- The header, the size of the block and the times are the same. -/
structure SameTimes (s s' : Store E) : Prop where
  heap_n : s'.heap.n = s.heap.n
  heap_a : s'.heap.a = s.heap.a
  size : s'.size = s.size
  timeout : ∀ e, (s'.ev e).evTimeout = (s.ev e).evTimeout

namespace SameTimes

lemma refl (s : Store E) : SameTimes s s := ⟨rfl, rfl, rfl, fun _ => rfl⟩

lemma trans (h : SameTimes s s') (h' : SameTimes s' t) : SameTimes s t :=
  ⟨h'.heap_n.trans h.heap_n, h'.heap_a.trans h.heap_a, h'.size.trans h.size,
    fun e => (h'.timeout e).trans (h.timeout e)⟩

variable [DecidableEq E]

lemma of_put {v : ℕ} (hs : s.put i e v = some s') : SameTimes s s' :=
  have hp := put_of_eq_some hs
  ⟨hp.heap_n, hp.heap_a, hp.size, hp.timeout⟩

lemma mark (s : Store E) (e : E) (v : ℤ) : SameTimes s (s.mark e v) := by
  refine ⟨rfl, rfl, rfl, fun x => ?_⟩
  rcases eq_or_ne x e with rfl | hne
  · rw [mark_ev_self]
  · rw [mark_ev_of_ne hne]

lemma shiftUpUnconditionalLoop :
    ∀ {h : ℕ} {s : Store E}, shiftUpUnconditionalLoop fuel h x s = some (t, j) →
      SameTimes s t := by
  induction fuel with
  | zero => intro h s hs; cases hs
  | succ fuel ih =>
    intro h s hs
    obtain ⟨y, s₁, -, hs₁, ⟨-, heq⟩ | ⟨-, hs⟩⟩ := shiftUpUnconditionalLoop_succ.1 hs
    · obtain ⟨rfl, -⟩ := Prod.mk.inj heq
      exact of_put hs₁
    · exact (of_put hs₁).trans (ih hs)

lemma minHeapShiftUpUnconditional (hs : minHeapShiftUpUnconditional h x s = some t) :
    SameTimes s t := by
  obtain ⟨s₁, j, hloop, hput⟩ := minHeapShiftUpUnconditional_eq_some.1 hs
  exact (shiftUpUnconditionalLoop hloop).trans (of_put hput)

lemma shiftDownLoop :
    ∀ {h d : ℕ} {s : Store E}, shiftDownLoop fuel h d x s = some (t, j, c) → SameTimes s t := by
  induction fuel with
  | zero => intro h d s hs; cases hs
  | succ fuel ih =>
    intro h d s hs
    rcases shiftDownLoop_succ.1 hs with ⟨-, heq⟩ | ⟨-, m, y, -, -, ⟨-, heq⟩ | ⟨-, s₁, hs₁, hs⟩⟩
    · obtain ⟨rfl, -⟩ := Prod.mk.inj heq
      exact refl s
    · obtain ⟨rfl, -⟩ := Prod.mk.inj heq
      exact refl s
    · exact (of_put hs₁).trans (ih hs)

lemma minHeapShiftDown (hs : minHeapShiftDown h x s = some t) : SameTimes s t := by
  obtain ⟨s₁, j, m, hloop, hput⟩ := minHeapShiftDown_eq_some.1 hs
  exact (shiftDownLoop hloop).trans (of_put hput)

/-- The shift that follows the comparison with the parent. -/
lemma shift {up : Bool} {g : Store E → Store E} {r₁ r₂ : ℤ} (hg : ∀ t, SameTimes t (g t))
    (hs : (if up then (Event2.minHeapShiftUpUnconditional h x s).bind fun t => some (t, r₁)
      else (Event2.minHeapShiftDown h x s).bind fun t => some (g t, r₂)) = some (t, r)) :
    SameTimes s t ∧ (r = r₁ ∨ r = r₂) := by
  cases up with
  | true =>
    obtain ⟨s₁, hs₁, hs⟩ := Option.bind_eq_some_iff.1 hs
    obtain ⟨rfl, rfl⟩ := Prod.mk.inj (Option.some.inj hs)
    exact ⟨minHeapShiftUpUnconditional hs₁, Or.inl rfl⟩
  | false =>
    obtain ⟨s₁, hs₁, hs⟩ := Option.bind_eq_some_iff.1 hs
    obtain ⟨rfl, rfl⟩ := Prod.mk.inj (Option.some.inj hs)
    exact ⟨(minHeapShiftDown hs₁).trans (hg s₁), Or.inr rfl⟩

/-- An erase that does anything takes one cell off. -/
lemma minHeapErase (hidx : (s.ev e).minHeapIdx ≠ -1)
    (hs : minHeapErase e s = some (t, r)) :
    SameTimes { s with heap := { s.heap with n := toUInt32 (s.heap.n - 1) } } t := by
  rw [Event2.minHeapErase, if_pos hidx] at hs
  obtain ⟨x, -, hs⟩ := Option.bind_eq_some_iff.1 hs
  obtain ⟨up, -, hs⟩ := Option.bind_eq_some_iff.1 hs
  exact (shift (fun t => mark t e (-1)) hs).1

lemma minHeapAdjust (hidx : (s.ev e).minHeapIdx ≠ -1)
    (hs : minHeapAdjust T realloc e s = some (t, r)) : SameTimes s t ∧ r = 0 := by
  rw [Event2.minHeapAdjust, if_neg hidx] at hs
  obtain ⟨up, -, hs⟩ := Option.bind_eq_some_iff.1 hs
  exact (shift refl hs).imp_right fun h => h.elim id id

end SameTimes

variable [DecidableEq E]

/-- A push changes no event but the one it is given, and of that the position only. -/
lemma minHeapPush_ev (hn : s.heap.n < 2 ^ 32) (ha : s.heap.a < 2 ^ 32)
    (hs : minHeapPush T realloc e s = some (t, r)) :
    (∀ x ≠ e, t.ev x = s.ev x) ∧ ∀ x, (t.ev x).evTimeout = (s.ev x).evTimeout := by
  rcases minHeapPush_cases T realloc e hn ha with ⟨-, hsame⟩ | ⟨s₁, -, hg, hpush⟩
  · rw [hs] at hsame
    obtain ⟨rfl, -⟩ := Prod.mk.inj (Option.some.inj hsame)
    exact ⟨fun _ _ => rfl, fun _ => rfl⟩
  · rw [hpush, Option.map_eq_some_iff] at hs
    obtain ⟨t', ht, heq⟩ := hs
    obtain ⟨rfl, -⟩ := Prod.mk.inj heq
    have hcop := copied_of_minHeapShiftUp ht
    refine ⟨fun x hx => ?_, fun x => ?_⟩
    · rw [hcop.ev x hx]
      exact congrFun hg.ev x
    · rw [hcop.timeout]
      exact congrArg Event.evTimeout (congrFun hg.ev x)

/-! ## The heap and the set -/

omit [DecidableEq E] in
/-- The heap is valid, and its live events are the members of the set, with their times. -/
structure Stands (x : Tracked E) : Prop where
  valid : Valid x.store
  live : ∀ e, e ∈ x.set.members ↔ Live x.store e
  key : ∀ e ∈ x.set.members, x.set.key e = (x.store.ev e).evTimeout

/-- What an operation should return: a push and an adjust 0, an erase 0 for a member of the set and
-1 for any other event, a pop and a top a top element of the set. -/
def HeapOp.Answer (a : KeyedSet E Timeval) : HeapOp E → Reply E → Prop
  | .push _ _, r => r = .code 0
  | .pop, r => ∃ t, r = .event t ∧ a.IsTop t
  | .erase e, r => (e ∈ a.members → r = .code 0) ∧ (e ∉ a.members → r = .code (-1))
  | .adjust _ _, r => r = .code 0
  | .top, r => ∃ t, r = .event t ∧ a.IsTop t

/-- What is expected of an operation. -/
structure OpRight (x : Tracked E) (op : HeapOp E) (r : Tracked E × List (Reply E)) : Prop where
  stands : Stands r.1
  answer : ∃ reply, r.2 = [reply] ∧ op.Answer x.set reply
  /-- An event that has been taken out has position -1. -/
  unmarked : ∀ e ∈ x.set.members, e ∉ r.1.set.members → (r.1.store.ev e).minHeapIdx = -1

/-- The event at position `i` is the last one, and the block has the cell of its second child. -/
def EraseFits (s : Store E) (i : ℕ) : Prop := i + 1 = s.heap.n ∧ 2 * s.heap.n < s.heap.a

/-- Adjusting the event at position `i` to the time `u` goes upwards, or the event has no child, but
the block has the cell of its second one. -/
def AdjustFits (s : Store E) (i : ℕ) (u : Timeval) : Prop :=
  (0 < i ∧ u < s.key (parent i)) ∨ (s.heap.n ≤ 2 * i + 1 ∧ 2 * i + 2 < s.heap.a)

/-- The condition of each operation on the heap before it. -/
def OpFits (x : Tracked E) : HeapOp E → Prop
  | .push e _ => x.store.heap.n = 0 ∧ 2 ^ 31 ≤ x.store.heap.a ∧ x.store.cell 0 = some e
  | .pop => x.store.heap.n = 0
  | .erase e => (x.store.ev e).minHeapIdx ≠ -1 →
      ∃ i < x.store.heap.n, x.store.cell i = some e ∧ EraseFits x.store i
  | .adjust e u => ∃ i < x.store.heap.n, x.store.cell i = some e ∧ AdjustFits x.store i u
  | .top => False

namespace Stands

variable {a : Tracked E} {u : Timeval}

omit [DecidableEq E] in
/-- An event with position -1 is in no cell. -/
lemma not_live (h : Stands a) (he : (a.store.ev e).minHeapIdx = -1) : ¬ Live a.store e := by
  rintro ⟨i, hi, hc⟩
  have hidx := h.valid.toPlaced.idx hi hc
  omega

omit [DecidableEq E] in
lemma members_eq_empty_iff (h : Stands a) : a.set.members = ∅ ↔ a.store.heap.n = 0 := by
  constructor
  · intro hempty
    by_contra hn
    obtain ⟨e, he, -⟩ := h.valid.live 0 (by omega)
    have hmem := (h.live e).2 ⟨0, by omega, he⟩
    rw [hempty] at hmem
    exact absurd hmem (Finset.notMem_empty e)
  · intro hn
    refine Finset.eq_empty_of_forall_notMem fun e he => ?_
    have hpos := ((h.live e).1 he).n_pos
    omega

/-! ## One operation -/

lemma push_iff (h : Stands a) (he : (a.store.ev e).minHeapIdx = -1) :
    (∃ r, heapStep T (.push e u) a = some r ∧ OpRight a (.push e u) r) ↔
      OpFits a (.push e u) := by
  have hp := h.valid.toPlaced
  have hp' : Placed (a.store.setTimeout e u) := hp.setTimeout
  have hn := hp.n_le_int
  have he' : ((a.store.setTimeout e u).ev e).minHeapIdx = -1 := setTimeout_idx.trans he
  constructor
  · rintro ⟨r, hr, hright⟩
    obtain ⟨q, hq, rfl⟩ := heapStep_eq_some.1 hr
    obtain ⟨⟨s', code⟩, hs', rfl⟩ := Option.map_eq_some_iff.1 hq
    have hstands : Stands ⟨s', a.set.put e u⟩ := hright.stands
    have hlt : (a.store.setTimeout e u).heap.n < 2 ^ 32 := lt_of_le_of_lt hn (by omega)
    have ha : (a.store.setTimeout e u).heap.a < 2 ^ 32 := hp.a_lt
    obtain ⟨hev, htimes⟩ := minHeapPush_ev hlt ha hs'
    have hlive : ∀ x, Live s' x ↔ x = e ∨ Live a.store x := by
      intro x
      rw [← h.live x]
      exact (hstands.live x).symm.trans Finset.mem_insert
    rcases minHeapPush_cases T (fun _ => true) e hlt ha with
      ⟨-, hsame⟩ | ⟨s₁, hrev, hg, hpush⟩
    · -- the push has failed, and `e` is in no cell
      rw [hs'] at hsame
      obtain ⟨rfl, -⟩ := Prod.mk.inj (Option.some.inj hsame)
      exact absurd ((hlive e).2 (Or.inl rfl)) (h.not_live he)
    · have hr0 : (minHeapRevserse T (fun _ => true) (a.store.heap.n + 1)
          (a.store.setTimeout e u)).2 = 0 := congrArg Prod.snd hrev
      have hcode : code = 0 := by
        rw [hpush, Option.map_eq_some_iff] at hs'
        obtain ⟨t, -, heq⟩ := hs'
        exact (Prod.mk.inj heq).2.symm
      rw [hcode] at hs'
      have hpr : PushRight T (fun _ => true) e (a.store.setTimeout e u) :=
        ⟨s', hs', hstands.valid, hlive, htimes,
          fun x hx => hev x fun hxe => hx ((hlive x).2 (Or.inl hxe))⟩
      rcases Nat.eq_zero_or_pos a.store.heap.n with hz | hpos
      · exact ⟨hz, (pushRight_of_empty_iff hp' hz hr0).1 hpr⟩
      · exact absurd hpr (not_pushRight_of_pos hp' hpos he' hr0)
  · rintro ⟨hz, ha, hc⟩
    have hrev : minHeapRevserse T (fun _ => true) (a.store.heap.n + 1)
        (a.store.setTimeout e u) = (a.store.setTimeout e u, 0) := by
      have hgrow : growth T (a.store.setTimeout e u).heap.a (a.store.heap.n + 1) = .enough :=
        growth_of_le (by show a.store.heap.n + 1 ≤ a.store.heap.a; omega)
      rw [minHeapRevserse, hgrow]
    obtain ⟨s', hs', hv', hl', htimes, -⟩ := (pushRight_of_empty_iff hp' hz
      (by rw [show (a.store.setTimeout e u).heap.n = a.store.heap.n from rfl, hrev])).2 ⟨ha, hc⟩
    refine ⟨(⟨s', a.set.put e u⟩, [.code 0]), ?_, ⟨hv', fun x => ?_, fun x hx => ?_⟩,
      ⟨_, rfl, rfl⟩, fun x hx hno => absurd (Finset.mem_insert_of_mem hx) hno⟩
    · rw [heapStep, HeapOp.run, hs']
      rfl
    · rw [hl']
      exact Finset.mem_insert.trans (or_congr_right (h.live x))
    · rw [htimes]
      rcases eq_or_ne x e with rfl | hne
      · rw [setTimeout_ev_self]
        exact Function.update_self ..
      · rw [setTimeout_ev_of_ne hne]
        exact (Function.update_of_ne hne ..).trans
          (h.key x ((Finset.mem_insert.1 hx).resolve_left hne))

lemma pop_iff (h : Stands a) :
    (∃ r, heapStep T .pop a = some r ∧ OpRight a .pop r) ↔ OpFits a .pop := by
  constructor
  · rintro ⟨r, hr, -⟩
    obtain ⟨q, hq, -⟩ := heapStep_eq_some.1 hr
    by_contra hn
    rw [HeapOp.run, minHeapPop_of_ne_zero hn] at hq
    cases hq
  · intro hn
    refine ⟨(a, [.event none]), ?_, h, ⟨_, rfl, none, rfl, h.members_eq_empty_iff.2 hn⟩,
      fun _ hx hno => absurd hx hno⟩
    rw [heapStep, HeapOp.run, minHeapPop_of_eq_zero hn]
    rfl

omit [DecidableEq E] in
/-- The condition on the position of a member. -/
lemma fits_iff {P : ℕ → Prop} (h : Stands a) (hi : i < a.store.heap.n)
    (hc : a.store.cell i = some e) :
    (∃ j < a.store.heap.n, a.store.cell j = some e ∧ P j) ↔ P i := by
  constructor
  · rintro ⟨j, hj, hcj, hP⟩
    obtain rfl := h.valid.toPlaced.cell_injective hi hj hc hcj
    exact hP
  · intro hP
    exact ⟨i, hi, hc, hP⟩

lemma erase_iff (h : Stands a)
    (hcalled : (a.store.ev e).minHeapIdx = -1 ∨ e ∈ a.set.members) :
    (∃ r, heapStep T (.erase e) a = some r ∧ OpRight a (.erase e) r) ↔ OpFits a (.erase e) := by
  have hp := h.valid.toPlaced
  have hn := hp.n_le_int
  have hgone : ∀ x ∈ a.set.members, x ∉ (a.set.remove e).members → x = e := by
    intro x hx hno
    by_contra hne
    exact hno (KeyedSet.mem_remove.2 ⟨hne, hx⟩)
  by_cases hidx : (a.store.ev e).minHeapIdx = -1
  · have hno : e ∉ a.set.members := fun hmem => h.not_live hidx ((h.live e).1 hmem)
    refine iff_of_true ⟨(⟨a.store, a.set.remove e⟩, [.code (-1)]), ?_,
      ⟨h.valid, fun x => ?_, fun x hx => h.key x (KeyedSet.mem_remove.1 hx).2⟩,
      ⟨_, rfl, fun hmem => absurd hmem hno, fun _ => rfl⟩, fun x hx hnox => ?_⟩
      fun hne => absurd hidx hne
    · rw [heapStep, HeapOp.run, minHeapErase_of_unmarked hidx]
      rfl
    · rw [KeyedSet.mem_remove, h.live]
      refine ⟨And.right, fun hl => ⟨?_, hl⟩⟩
      rintro rfl
      exact h.not_live hidx hl
    · exact absurd (hgone x hx hnox ▸ hx) hno
  · have hmem : e ∈ a.set.members := hcalled.resolve_left hidx
    obtain ⟨i, hi, hc⟩ := (h.live e).1 hmem
    have hfits : OpFits a (.erase e) ↔ EraseFits a.store i := by
      rw [OpFits, imp_iff_right hidx]
      exact h.fits_iff hi hc
    rw [hfits, EraseFits]
    constructor
    · rintro ⟨r, hr, hright⟩
      obtain ⟨q, hq, rfl⟩ := heapStep_eq_some.1 hr
      obtain ⟨⟨s', code⟩, hs', rfl⟩ := Option.map_eq_some_iff.1 hq
      have hstands : Stands ⟨s', a.set.remove e⟩ := hright.stands
      have hcode : code = 0 := by
        obtain ⟨reply, hreply, hzero, -⟩ := hright.answer
        obtain rfl := (List.cons.inj hreply).1
        exact Reply.code.inj (hzero hmem)
      have hn' : s'.heap.n = a.store.heap.n - 1 :=
        (SameTimes.minHeapErase hidx hs').heap_n.trans (toUInt32_pred (by omega) hn)
      have herase : EraseRight e a.store := by
        refine ⟨s', code, hs', by omega, hstands.valid, fun y => ?_⟩
        rw [← h.live y]
        exact (hstands.live y).symm.trans KeyedSet.mem_remove
      -- upwards the code is -1
      have hdown : ¬ (0 < i ∧ a.store.key (a.store.heap.n - 1) < a.store.key (parent i)) := by
        intro hup
        obtain ⟨x, hx, -⟩ := hp.live (a.store.heap.n - 1) (by omega)
        rw [key_of_cell hx] at hup
        rw [minHeapErase_eq hp hi hc hx, if_pos hup, Option.map_eq_some_iff] at hs'
        obtain ⟨s₁, -, heq⟩ := hs'
        have hneg := (Prod.mk.inj heq).2
        omega
      have hlast : i + 1 = a.store.heap.n := by
        by_contra hne
        exact not_eraseRight_of_down hp (by omega) hc hdown herase
      exact ⟨hlast, (eraseRight_last_iff h.valid hlast hc).1 herase⟩
    · rintro ⟨hlast, hroom⟩
      obtain ⟨s', code, hs', -, hv', hl'⟩ := (eraseRight_last_iff h.valid hlast hc).2 hroom
      have hend := hs'
      rw [minHeapErase_last h.valid hlast hc, Option.map_eq_some_iff] at hend
      obtain ⟨s₁, -, heq⟩ := hend
      obtain ⟨rfl, rfl⟩ := Prod.mk.inj heq
      refine ⟨(⟨s₁.mark e (-1), a.set.remove e⟩, [.code 0]), ?_,
        ⟨hv', fun x => ?_, fun x hx => ?_⟩, ⟨_, rfl, fun _ => rfl, fun hno => absurd hmem hno⟩,
        fun x hx hno => ?_⟩
      · rw [heapStep, HeapOp.run, hs']
        rfl
      · rw [hl', KeyedSet.mem_remove, h.live]
      · rw [(SameTimes.minHeapErase hidx hs').timeout]
        exact h.key x (KeyedSet.mem_remove.1 hx).2
      · obtain rfl := hgone x hx hno
        show ((s₁.mark x (-1)).ev x).minHeapIdx = -1
        rw [mark_ev_self]
        rfl

lemma adjust_iff (h : Stands a) (hmem : e ∈ a.set.members) :
    (∃ r, heapStep T (.adjust e u) a = some r ∧ OpRight a (.adjust e u) r) ↔
      OpFits a (.adjust e u) := by
  obtain ⟨i, hi, hc⟩ := (h.live e).1 hmem
  have hidx : ((a.store.setTimeout e u).ev e).minHeapIdx ≠ -1 := by
    have := h.valid.toPlaced.idx hi hc
    rw [setTimeout_idx]
    omega
  have hfits : OpFits a (.adjust e u) ↔ AdjustFits a.store i u := h.fits_iff hi hc
  rw [hfits, AdjustFits, ← adjustRight_setTimeout_iff T (fun _ => true) h.valid hi hc u]
  constructor
  · rintro ⟨r, hr, hright⟩
    obtain ⟨q, hq, rfl⟩ := heapStep_eq_some.1 hr
    obtain ⟨⟨s', code⟩, hs', rfl⟩ := Option.map_eq_some_iff.1 hq
    have hstands : Stands ⟨s', a.set.rekey e u⟩ := hright.stands
    obtain ⟨hsame, hcode⟩ := SameTimes.minHeapAdjust hidx hs'
    rw [hcode] at hs'
    refine ⟨s', hs', hsame.heap_n, hstands.valid, fun y => ?_⟩
    exact (hstands.live y).symm.trans (h.live y)
  · rintro ⟨s', hs', -, hv', hl'⟩
    refine ⟨(⟨s', a.set.rekey e u⟩, [.code 0]), ?_, ⟨hv', fun x => ?_, fun x hx => ?_⟩,
      ⟨_, rfl, rfl⟩, fun x hx hno => absurd hx hno⟩
    · rw [heapStep, HeapOp.run, hs']
      rfl
    · exact (h.live x).trans (hl' x).symm
    · rw [(SameTimes.minHeapAdjust hidx hs').1.timeout]
      rcases eq_or_ne x e with rfl | hne
      · rw [setTimeout_ev_self]
        exact Function.update_self ..
      · rw [setTimeout_ev_of_ne hne]
        exact (Function.update_of_ne hne ..).trans (h.key x hx)

lemma top_iff (h : Stands a) :
    (∃ r, heapStep T .top a = some r ∧ OpRight a .top r) ↔ OpFits a .top := by
  refine iff_of_false ?_ id
  rintro ⟨r, hr, hright⟩
  obtain ⟨q, hq, rfl⟩ := heapStep_eq_some.1 hr
  obtain ⟨top, htop, rfl⟩ := Option.map_eq_some_iff.1 hq
  obtain ⟨reply, hreply, t, hevent, hist⟩ := hright.answer
  obtain rfl : top = t := by
    obtain rfl := (List.cons.inj hreply).1
    exact Reply.event.inj hevent
  rcases eq_or_ne a.store.heap.n 0 with hn | hn
  · -- of an empty heap, the first cell is returned
    rw [minHeapTop_of_eq_zero hn, Option.map_eq_some_iff] at htop
    obtain ⟨e, -, rfl⟩ := htop
    have hmem := hist.1
    rw [h.members_eq_empty_iff.2 hn] at hmem
    exact absurd hmem (Finset.notMem_empty e)
  · rw [minHeapTop_of_ne_zero hn] at htop
    obtain rfl := Option.some.inj htop
    exact hn (h.members_eq_empty_iff.1 hist)

/-- **One operation.** -/
lemma op_iff (h : Stands a) {op : HeapOp E} (hcalled : op.Called a) :
    (∃ r, heapStep T op a = some r ∧ OpRight a op r) ↔ OpFits a op := by
  cases op with
  | push e u => exact h.push_iff hcalled
  | pop => exact h.pop_iff
  | erase e => exact h.erase_iff hcalled
  | adjust e u => exact h.adjust_iff hcalled
  | top => exact h.top_iff

end Stands

/-! ## Runs -/

/-- **The runs in which a valid heap goes on standing for its set.**  From any valid heap that
stands for a set, every operation of a run is defined, does to the heap what it should do to the
set, and returns what it should, exactly if every operation meets its condition on the heap
before it. -/
theorem opRight_iff_opFits (T : SizeT) (a : Tracked E) (h : Stands a) (ops : List (HeapOp E))
    (hcalled : Allowed (heapStep T) HeapOp.Called ops a) :
    Throughout (heapStep T) OpRight ops a ↔ Allowed (heapStep T) OpFits ops a := by
  refine throughout_iff_allowed Stands (fun a op h hop => h.op_iff hop)
    (fun a op r h hop hfits hr => ?_) h hcalled
  obtain ⟨r', hr', hright⟩ := (h.op_iff hop).2 hfits
  obtain rfl := Option.some.inj (hr.symm.trans hr')
  exact hright.stands

/-- A valid heap stands for the set of its live events. -/
lemma Valid.stands (hv : Valid s) : Stands ⟨s, s.live⟩ :=
  ⟨hv, fun _ => mem_live, fun _ _ => rfl⟩

/-- The last of six events is adjusted to be the first one, and the one that is the last then is
erased. -/
theorem opRight_iff_opFits_six :
    Throughout (heapStep .bits64) OpRight [.adjust 5 ⟨0, 0⟩, .erase 2]
      ⟨heapOf [1, 10, 2, 11, 12, 3] 13, (heapOf [1, 10, 2, 11, 12, 3] 13).live⟩ := by
  have hv : Valid (heapOf [1, 10, 2, 11, 12, 3] 13) := valid_heapOf (by decide)
  have hlive : ∀ i < 6, (heapOf [1, 10, 2, 11, 12, 3] 13).cell i = some i →
      i ∈ (heapOf [1, 10, 2, 11, 12, 3] 13).live.members := fun i hi hc => mem_live.2 ⟨i, hi, hc⟩
  -- the cells after the first operation
  have hfirst : (heapStep .bits64 (.adjust 5 ⟨0, 0⟩)
      ⟨heapOf [1, 10, 2, 11, 12, 3] 13, (heapOf [1, 10, 2, 11, 12, 3] 13).live⟩).map
        (fun r => (r.1.store.heap.n, r.1.store.heap.a, r.1.store.cell 5)) =
      some (6, 13, some 2) := by rfl
  refine (opRight_iff_opFits .bits64 _ hv.stands [.adjust 5 ⟨0, 0⟩, .erase 2] ?_).2 ?_
  · refine ⟨hlive 5 (by decide) rfl, fun r hr => ⟨Or.inr ?_, fun _ _ => trivial⟩⟩
    obtain ⟨q, -, rfl⟩ := heapStep_eq_some.1 hr
    exact hlive 2 (by decide) rfl
  · refine ⟨⟨5, by decide, rfl, Or.inl ?_⟩, fun r hr => ⟨fun _ => ?_, fun _ _ => trivial⟩⟩
    · decide
    · rw [hr] at hfirst
      simp only [Option.map_some, Option.some.injEq, Prod.mk.injEq] at hfirst
      obtain ⟨hn, ha, hc⟩ := hfirst
      exact ⟨5, by omega, hc, by omega, by omega⟩

end LibeventLearn.Event2
