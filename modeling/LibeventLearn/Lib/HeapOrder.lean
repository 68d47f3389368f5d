import Mathlib.Logic.Relation
import Mathlib.Order.Lattice
import Mathlib.Order.Nat

/-!
# Binary heaps as arrays of keys

The positions of a binary heap of `n` keys are those below `n`; the position above `i` is
`parent i`, and the positions below it are `2 * i + 1` and `2 * i + 2`.  This file has the order
of a heap, the order of a heap with a hole in it, through which the upward loops go, and the
paths on which a key climbs or sinks.
-/

namespace LibeventLearn.Lib

/-- The position above `i`. -/
def parent (i : ℕ) : ℕ := (i - 1) / 2

lemma parent_lt {i : ℕ} (h : 0 < i) : parent i < i := by
  unfold parent
  omega

variable {K : Type*} [LinearOrder K] {k : ℕ → K} {n h i j : ℕ} {v : K}

/-- No key is smaller than the one above it. -/
def Ordered (k : ℕ → K) (n : ℕ) : Prop := ∀ i, 0 < i → i < n → k (parent i) ≤ k i

/-- Only the keys of the heap matter. -/
lemma Ordered.congr {k' : ℕ → K} (ho : Ordered k n) (hk : ∀ i < n, k' i = k i) :
    Ordered k' n := by
  intro i h0 hi
  have hlt := parent_lt h0
  rw [hk i hi, hk _ (hlt.trans hi)]
  exact ho i h0 hi

/-- Whether a key goes upwards depends on that of the parent only. -/
lemma lt_parent_congr {k' : ℕ → K} (hk : 0 < i → k' (parent i) = k (parent i)) :
    0 < i ∧ v < k' (parent i) ↔ 0 < i ∧ v < k (parent i) :=
  and_congr_right fun h0 => by rw [hk h0]

instance : Decidable (Ordered k n) :=
  decidable_of_iff (∀ i < n, 0 < i → k (parent i) ≤ k i)
    ⟨fun h i h0 hi => h i hi h0, fun h i hi h0 => h i h0 hi⟩

/-- The root has a smallest key. -/
lemma Ordered.root_le (ho : Ordered k n) : i < n → k 0 ≤ k i := by
  induction i using Nat.strong_induction_on with
  | h i ih =>
    intro hi
    rcases Nat.eq_zero_or_pos i with rfl | hpos
    · exact le_refl _
    · have hlt := parent_lt hpos
      exact (ih (parent i) hlt (by omega)).trans (ho i hpos hi)

/-! ## A hole -/

/-- The order away from the position `h`, and across it. -/
structure OrderedOff (k : ℕ → K) (n h : ℕ) : Prop where
  off : ∀ i, 0 < i → i < n → i ≠ h → parent i ≠ h → k (parent i) ≤ k i
  across : 0 < h → ∀ i, 0 < i → i < n → parent i = h → k (parent h) ≤ k i

lemma Ordered.off (ho : Ordered k n) (hh : h < n) : OrderedOff k n h := by
  refine ⟨fun i h0 hi _ _ => ho i h0 hi, fun h0 i hi0 hi hp => ?_⟩
  have hup : k h ≤ k i := hp ▸ ho i hi0 hi
  exact (ho h h0 hh).trans hup

/-- A key that changes at the hole is not seen. -/
lemma OrderedOff.congr {k' : ℕ → K} (ho : OrderedOff k n h)
    (hk : ∀ i < n, i ≠ h → k' i = k i) : OrderedOff k' n h := by
  refine ⟨fun i h0 hi hne hp => ?_, fun h0 i hi0 hi hp => ?_⟩
  · rw [hk i hi hne, hk _ ((parent_lt h0).trans hi) hp]
    exact ho.off i h0 hi hne hp
  · have hlt : h < i := hp ▸ parent_lt hi0
    rw [hk i hi hlt.ne', hk _ (by have := parent_lt h0; omega) (parent_lt h0).ne]
    exact ho.across h0 i hi0 hi hp

/-- A heap with fewer keys. -/
lemma OrderedOff.mono {m : ℕ} (ho : OrderedOff k n h) (hm : m ≤ n) : OrderedOff k m h :=
  ⟨fun i h0 hi => ho.off i h0 (by omega), fun h0 i hi0 hi => ho.across h0 i hi0 (by omega)⟩

/-- The hole moves up when the key above it moves down. -/
lemma OrderedOff.up (ho : OrderedOff k n h) (h0 : 0 < h) (hh : h < n) :
    OrderedOff (Function.update k h (k (parent h))) n (parent h) := by
  have hlt := parent_lt h0
  refine ⟨fun i hi0 hi hne hp => ?_, fun hp0 i hi0 hi hp => ?_⟩
  · rcases eq_or_ne i h with rfl | hih
    · exact absurd rfl hp
    rw [Function.update_of_ne hih]
    rcases eq_or_ne (parent i) h with hpi | hpi
    · rw [hpi, Function.update_self]
      exact ho.across h0 i hi0 hi hpi
    · rw [Function.update_of_ne hpi]
      exact ho.off i hi0 hi hih hpi
  · have hlt' := parent_lt hp0
    -- the key above the old hole is not smaller than the one above that
    have hstep : k (parent (parent h)) ≤ k (parent h) :=
      ho.off (parent h) hp0 (by omega) (by omega) (by omega)
    rw [Function.update_of_ne (by omega : parent (parent h) ≠ h)]
    rcases eq_or_ne i h with rfl | hih
    · rw [Function.update_self]
      exact hstep
    · rw [Function.update_of_ne hih]
      have hsib := ho.off i hi0 hi hih (by omega)
      rw [hp] at hsib
      exact hstep.trans hsib

/-- The keys below the new hole are those of its old value, and not smaller. -/
lemma OrderedOff.below_up (ho : OrderedOff k n h) (h0 : 0 < h) (hv : v < k (parent h)) (hi0 : 0 < i)
    (hi : i < n) (hp : parent i = parent h) :
    v ≤ Function.update k h (k (parent h)) i := by
  rcases eq_or_ne i h with rfl | hih
  · rw [Function.update_self]
    exact hv.le
  · rw [Function.update_of_ne hih]
    have hsib := ho.off i hi0 hi hih (by rw [hp]; exact (parent_lt h0).ne)
    rw [hp] at hsib
    exact hv.le.trans hsib

/-- The hole is filled by a key that is in order with those around it. -/
lemma OrderedOff.fill (ho : OrderedOff k n h) (hup : 0 < h → k (parent h) ≤ v)
    (hdown : ∀ i, 0 < i → i < n → parent i = h → v ≤ k i) :
    Ordered (Function.update k h v) n := by
  intro i h0 hi
  have hlt := parent_lt h0
  rcases eq_or_ne i h with rfl | hne
  · rw [Function.update_self, Function.update_of_ne hlt.ne]
    exact hup h0
  · rw [Function.update_of_ne hne]
    rcases eq_or_ne (parent i) h with hp | hp
    · rw [hp, Function.update_self]
      exact hdown i h0 hi hp
    · rw [Function.update_of_ne hp]
      exact ho.off i h0 hi hne hp

/-- The hole is in order with those around it. -/
lemma OrderedOff.ordered (ho : OrderedOff k n h) (hup : 0 < h → k (parent h) ≤ k h)
    (hdown : ∀ i, 0 < i → i < n → parent i = h → k h ≤ k i) : Ordered k n := by
  have hfill := ho.fill hup hdown
  rwa [Function.update_eq_self] at hfill

/-! ## Climbing -/

/-- `j` is on the way from `i` to the root. -/
inductive Above : ℕ → ℕ → Prop
  | parent {i : ℕ} (h : 0 < i) : Above (parent i) i
  | step {j i : ℕ} (h : 0 < i) (hj : Above j (Lib.parent i)) : Above j i

lemma Above.lt (ha : Above j i) : j < i := by
  induction ha with
  | parent h => exact parent_lt h
  | step h _ ih => exact ih.trans (parent_lt h)

lemma above_zero (h0 : 0 < i) : Above 0 i := by
  induction i using Nat.strong_induction_on with
  | h i ih =>
    rcases Nat.eq_zero_or_pos (parent i) with hp | hp
    · rw [← hp]
      exact .parent h0
    · exact .step h0 (ih (parent i) (parent_lt h0) hp)

/-- Every key on the way from `i` to the root is greater than `v`. -/
def Climbs (k : ℕ → K) (v : K) (i : ℕ) : Prop := ∀ j, Above j i → v < k j

lemma climbs_iff (h0 : 0 < i) :
    Climbs k v i ↔ v < k (parent i) ∧ Climbs k v (parent i) := by
  constructor
  · intro hc
    exact ⟨hc _ (.parent h0), fun j hj => hc j (.step h0 hj)⟩
  · rintro ⟨hp, hc⟩ j hj
    cases hj with
    | parent _ => exact hp
    | step _ hj => exact hc j hj

/-- Only the keys above matter. -/
lemma Climbs.congr {k' : ℕ → K} (hk : ∀ j < i, k' j = k j) : Climbs k' v i ↔ Climbs k v i := by
  constructor
  · intro hc j hj
    rw [← hk j hj.lt]
    exact hc j hj
  · intro hc j hj
    rw [hk j hj.lt]
    exact hc j hj

lemma climbs_zero : Climbs k v 0 := fun _ hj => absurd hj.lt (Nat.not_lt_zero _)

/-- In a heap, only the root matters. -/
lemma Ordered.climbs_iff (ho : Ordered k n) (h0 : 0 < i) (hi : i ≤ n) :
    Climbs k v i ↔ v < k 0 := by
  constructor
  · intro hc
    exact hc 0 (above_zero h0)
  · intro hv j hj
    have hlt := hj.lt
    exact hv.trans_le (ho.root_le (by omega))

/-! ## Sinking -/

/-- Of the positions below `h` in a heap of `n` keys, the one with the smaller key, the left
one if they are equal. -/
def minChild (k : ℕ → K) (n h : ℕ) : ℕ :=
  if 2 * h + 2 = n ∨ k (2 * h + 1) < k (2 * h + 2) then 2 * h + 1 else 2 * h + 2

/-- The key `v` sinks from `h` to the position `c` below it, which has a smaller key. -/
structure Sinks (k : ℕ → K) (n : ℕ) (v : K) (h c : ℕ) : Prop where
  le : 2 * h + 2 ≤ n
  eq : c = minChild k n h
  lt : k c < v

/-- The key `v` sinks from one position to another, in any number of steps. -/
def SinksTo (k : ℕ → K) (n : ℕ) (v : K) : ℕ → ℕ → Prop := Relation.ReflTransGen (Sinks k n v)

lemma lt_minChild (k : ℕ → K) (n h : ℕ) : h < minChild k n h := by
  unfold minChild
  split <;> omega

lemma minChild_lt (hle : 2 * h + 2 ≤ n) : minChild k n h < n := by
  unfold minChild
  split
  · omega
  · rename_i hne
    have : 2 * h + 2 ≠ n := fun heq => hne (Or.inl heq)
    omega

/-- A position that the key sinks to is below `n`, or where it started. -/
lemma SinksTo.eq_or_lt (hs : SinksTo k n v i j) : j = i ∨ i < j ∧ j < n := by
  induction hs with
  | refl => exact Or.inl rfl
  | tail _ hstep ih =>
    have hlt := minChild_lt (k := k) hstep.le
    have hgt := lt_minChild k n
    rw [hstep.eq]
    rcases ih with rfl | ⟨hij, -⟩
    · exact Or.inr ⟨hgt _, hlt⟩
    · exact Or.inr ⟨hij.trans (hgt _), hlt⟩

lemma minChild_congr {k' : ℕ → K} (hle : 2 * h + 2 ≤ n) (hk : ∀ j, h < j → j < n → k' j = k j) :
    minChild k' n h = minChild k n h := by
  unfold minChild
  rcases hle.eq_or_lt with heq | hlt
  · rw [if_pos (Or.inl heq), if_pos (Or.inl heq)]
  · rw [hk _ (by omega) (by omega), hk _ (by omega) hlt]

/-- Only the keys of the heap behind the start matter. -/
lemma SinksTo.congr {k' : ℕ → K} (hk : ∀ j, i < j → j < n → k' j = k j)
    (hs : SinksTo k n v i j) :
    SinksTo k' n v i j := by
  induction hs with
  | refl => exact .refl
  | @tail h c hpath hstep ih =>
    have hle : i ≤ h := by
      rcases SinksTo.eq_or_lt hpath with rfl | hlt
      · exact le_refl _
      · exact hlt.1.le
    have hgt : h < c := hstep.eq ▸ lt_minChild k n h
    have hlt : c < n := hstep.eq ▸ minChild_lt hstep.le
    refine ih.tail ⟨hstep.le, ?_, ?_⟩
    · rw [minChild_congr hstep.le fun j hj => hk j (by omega)]
      exact hstep.eq
    · rw [hk c (by omega) hlt]
      exact hstep.lt

/-- The first step down. -/
lemma sinksTo_iff (hle : 2 * h + 2 ≤ n) :
    SinksTo k n v h j ↔ j = h ∨ k (minChild k n h) < v ∧ SinksTo k n v (minChild k n h) j := by
  constructor
  · intro hs
    rcases Relation.ReflTransGen.cases_head hs with heq | ⟨c, hc, hs⟩
    · exact Or.inl heq.symm
    · obtain rfl := hc.eq
      exact Or.inr ⟨hc.lt, hs⟩
  · rintro (rfl | ⟨hlt, hs⟩)
    · exact .refl
    · exact .head ⟨hle, rfl, hlt⟩ hs

lemma not_sinks_of_leaf (hleaf : n < 2 * h + 2) (c : ℕ) : ¬ Sinks k n v h c := fun hc =>
  absurd hc.le (not_le.2 hleaf)

lemma not_sinks_of_le (hmin : v ≤ k (minChild k n h)) (c : ℕ) : ¬ Sinks k n v h c := by
  intro hc
  have hlt := hc.lt
  rw [hc.eq] at hlt
  exact absurd hlt (not_lt.2 hmin)

/-- At a leaf the key stays. -/
lemma sinksTo_leaf_iff (hleaf : n < 2 * h + 2) : SinksTo k n v h j ↔ j = h := by
  constructor
  · intro hs
    rcases Relation.ReflTransGen.cases_head hs with heq | ⟨c, hc, -⟩
    · exact heq.symm
    · exact absurd hc (not_sinks_of_leaf hleaf c)
  · rintro rfl
    exact .refl

/-- The key sinks to one leaf at most. -/
lemma SinksTo.leaf_unique (hs : SinksTo k n v i h) (hj : SinksTo k n v i j)
    (hleaf : n < 2 * h + 2) (hend : ∀ c, ¬ Sinks k n v j c) : h = j := by
  have hfun : Relator.RightUnique (Sinks k n v) := by
    intro a b c hb hc
    rw [hb.eq, hc.eq]
  rcases Relation.ReflTransGen.total_of_right_unique hfun hs hj with hle | hle
  · cases Relation.ReflTransGen.cases_head hle with
    | inl heq => exact heq
    | inr hstep =>
      obtain ⟨c, hc, -⟩ := hstep
      exact absurd hc (not_sinks_of_leaf hleaf c)
  · cases Relation.ReflTransGen.cases_head hle with
    | inl heq => exact heq.symm
    | inr hstep =>
      obtain ⟨c, hc, -⟩ := hstep
      exact absurd hc (hend c)

end LibeventLearn.Lib
