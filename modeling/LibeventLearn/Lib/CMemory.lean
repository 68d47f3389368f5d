import Mathlib.Algebra.Group.Int.Defs
import Mathlib.Algebra.Group.Nat.Defs
import Mathlib.Data.List.Basic
import Mathlib.Data.List.TakeWhile
import Mathlib.Data.Nat.Init

/-!
# Arrays, strings and integers of C

The part of C's memory that small programs on byte buffers use: arrays of a fixed size with
stores at an offset, where a store outside of the array is undefined; NUL-terminated text in
such an array, where the length of text without a terminator is undefined; formats that find no
arguments, where a conversion is undefined; integers of 32 bits, where unsigned arithmetic wraps and
signed overflow is undefined.
-/

namespace LibeventLearn.Lib

variable {α : Type*} {n : ℕ}

/-- The array with the cells from `off` on replaced by `src`, which fits in. -/
def blit (buf : Vector α n) (off : ℕ) (src : List α) (h : off + src.length ≤ n) : Vector α n :=
  (buf.take off ++ src.toArray.toVector ++ buf.drop (off + src.length)).cast (by
    have : src.toArray.size = src.length := by simp
    omega)

@[simp] lemma toList_blit (buf : Vector α n) (off : ℕ) (src : List α)
    (h : off + src.length ≤ n) :
    (blit buf off src h).toList =
      buf.toList.take off ++ src ++ buf.toList.drop (off + src.length) := by
  rw [blit, Vector.toList_cast, Vector.toList_append, Vector.toList_append, Vector.toList_take,
    Vector.toList_drop]
  simp [Array.toVector]

/-- A store of several cells: undefined unless all of them lie in the array. -/
def store (buf : Vector α n) (off : ℕ) (src : List α) : Option (Vector α n) :=
  if h : off + src.length ≤ n then some (blit buf off src h) else none

lemma store_of_le {buf : Vector α n} {off : ℕ} {src : List α} (h : off + src.length ≤ n) :
    store buf off src = some (blit buf off src h) := dif_pos h

lemma store_of_lt {buf : Vector α n} {off : ℕ} {src : List α} (h : n < off + src.length) :
    store buf off src = none := dif_neg (by omega)

/-- What a store that is defined leaves in the array. -/
lemma toList_of_store {buf buf' : Vector α n} {off : ℕ} {src : List α}
    (h : store buf off src = some buf') :
    off + src.length ≤ n ∧
      buf'.toList = buf.toList.take off ++ src ++ buf.toList.drop (off + src.length) := by
  by_cases hfit : off + src.length ≤ n
  · rw [store_of_le hfit] at h
    obtain rfl := Option.some.inj h
    exact ⟨hfit, toList_blit ..⟩
  · rw [store_of_lt (by omega)] at h
    cases h

/-- A store at the front of a uniform array. -/
lemma toList_blit_replicate (a : α) (src : List α) (h : 0 + src.length ≤ n) :
    (blit (Vector.replicate n a) 0 src h).toList =
      src ++ List.replicate (n - src.length) a := by
  simp

/-! ## NUL-terminated text -/

/-- `strlen` on the cells from the pointer to the end of the array: undefined when no
terminator is found before the end. -/
def strlen : List UInt8 → Option ℕ
  | [] => none
  | c :: cs => if c = 0 then some 0 else (strlen cs).map (· + 1)

/-- The text that a reader who stops at the terminator sees. -/
def cText (l : List UInt8) : List UInt8 := l.takeWhile (· ≠ 0)

@[simp] lemma cText_nil : cText [] = [] := rfl

@[simp] lemma cText_zero (l : List UInt8) : cText (0 :: l) = [] := by simp [cText]

lemma cText_cons_of_ne {c : UInt8} (hc : c ≠ 0) (l : List UInt8) :
    cText (c :: l) = c :: cText l := by simp [cText, hc]

lemma zero_notMem_cText (l : List UInt8) : (0 : UInt8) ∉ cText l := by
  intro h
  have := List.mem_takeWhile_imp h
  simp at this

lemma cText_of_notMem {t : List UInt8} (h : (0 : UInt8) ∉ t) : cText t = t := by
  rw [cText, List.takeWhile_eq_self_iff]
  intro c hc
  have : c ≠ 0 := fun h0 => h (h0 ▸ hc)
  simpa using this

lemma strlen_append_zero (t r : List UInt8) :
    strlen (t ++ 0 :: r) = some (cText t).length := by
  induction t with
  | nil => simp [strlen]
  | cons c t ih =>
    by_cases hc : c = 0
    · subst hc; simp [strlen]
    · rw [List.cons_append, strlen, if_neg hc, ih, cText_cons_of_ne hc]
      simp

lemma strlen_lt_length {l : List UInt8} {k : ℕ} (h : strlen l = some k) : k < l.length := by
  induction l generalizing k with
  | nil => simp [strlen] at h
  | cons c l ih =>
    rw [strlen] at h
    split at h
    · obtain rfl := Option.some.inj h
      simp
    · obtain ⟨k', hk', rfl⟩ := Option.map_eq_some_iff.1 h
      have := ih hk'
      simp only [List.length_cons]
      omega

lemma cText_append_zero {t : List UInt8} (h : (0 : UInt8) ∉ t) (r : List UInt8) :
    cText (t ++ 0 :: r) = t := by
  induction t with
  | nil => exact cText_zero r
  | cons c t ih =>
    rw [List.mem_cons, not_or] at h
    rw [List.cons_append, cText_cons_of_ne (fun hc => h.1 hc.symm), ih h.2]

/-- A reader of the front of a list sees the front of what a reader of all of it sees. -/
lemma cText_append_isPrefix (l r : List UInt8) : cText l <+: cText (l ++ r) := by
  induction l with
  | nil => exact List.nil_prefix
  | cons c l ih =>
    by_cases hc : c = 0
    · subst hc
      rw [cText_zero]
      exact List.nil_prefix
    · rw [List.cons_append, cText_cons_of_ne hc, cText_cons_of_ne hc]
      exact (List.prefix_cons_inj c).2 ih

/-- Texts with zeros behind each. -/
def zeroEnded (k : ℕ) (ts : List (List UInt8)) : List UInt8 :=
  ts.flatMap fun t => t ++ List.replicate k 0

/-- A reader who starts anywhere sees nothing, or the end of one text. -/
lemma cText_drop_zeroEnded {k : ℕ} (hk : 0 < k) {ts : List (List UInt8)}
    (h : ∀ t ∈ ts, (0 : UInt8) ∉ t) (i : ℕ) :
    cText ((zeroEnded k ts).drop i) = [] ∨
      ∃ t ∈ ts, cText ((zeroEnded k ts).drop i) <:+ t := by
  induction ts generalizing i with
  | nil =>
    left
    rw [zeroEnded, List.flatMap_nil, List.drop_nil, cText_nil]
  | cons t ts ih =>
    rw [List.forall_mem_cons] at h
    obtain ⟨m, rfl⟩ : ∃ m, k = m + 1 := ⟨k - 1, by omega⟩
    have hcons : zeroEnded (m + 1) (t :: ts) =
        t ++ (List.replicate (m + 1) 0 ++ zeroEnded (m + 1) ts) := by
      rw [zeroEnded, List.flatMap_cons, List.append_assoc]
      rfl
    rcases Nat.lt_or_ge i t.length with hi | hi
    · -- in the text
      right
      refine ⟨t, List.mem_cons_self, ?_⟩
      have hdrop : (0 : UInt8) ∉ t.drop i := fun h0 => h.1 (List.mem_of_mem_drop h0)
      rw [hcons, List.drop_append_of_le_length hi.le, List.replicate_succ, List.cons_append,
        cText_append_zero hdrop]
      exact List.drop_suffix i t
    · rw [hcons, List.drop_append, List.drop_eq_nil_of_le hi, List.nil_append, List.drop_append,
        List.drop_replicate, List.length_replicate]
      rcases Nat.eq_zero_or_pos (m + 1 - (i - t.length)) with hz | hz
      · rw [hz, List.replicate_zero, List.nil_append]
        refine (ih h.2 _).imp_right fun hend => ?_
        obtain ⟨t', ht', hsuf⟩ := hend
        exact ⟨t', List.mem_cons_of_mem t ht', hsuf⟩
      · -- in the zeros
        left
        obtain ⟨j, hj⟩ := Nat.exists_eq_add_one.2 hz
        rw [hj, List.replicate_succ, List.cons_append, cText_zero]

/-- A reader of any part sees nothing, or a part of one text. -/
lemma cText_of_infix_zeroEnded {k : ℕ} (hk : 0 < k) {ts : List (List UInt8)}
    (h : ∀ t ∈ ts, (0 : UInt8) ∉ t) {l : List UInt8} (hl : l <:+: zeroEnded k ts) :
    cText l = [] ∨ ∃ t ∈ ts, cText l <:+: t := by
  obtain ⟨u, v, huv⟩ := hl
  have hdrop : (zeroEnded k ts).drop u.length = l ++ v := by
    rw [← huv, List.append_assoc, List.drop_left]
  have hpre := cText_append_isPrefix l v
  rw [← hdrop] at hpre
  rcases cText_drop_zeroEnded hk h u.length with hnil | ⟨t, ht, hsuf⟩
  · left
    rw [hnil] at hpre
    exact List.prefix_nil.1 hpre
  · exact Or.inr ⟨t, ht, hpre.isInfix.trans hsuf.isInfix⟩

/-- What `%s` prints of an array: undefined when there is no terminator. -/
def cString (buf : Vector UInt8 n) : Option (List UInt8) :=
  (strlen buf.toList).map fun k => buf.toList.take k

lemma cString_of_toList {buf : Vector UInt8 n} {t r : List UInt8}
    (h : buf.toList = t ++ 0 :: r) (ht : (0 : UInt8) ∉ t) : cString buf = some t := by
  rw [cString, h, strlen_append_zero, cText_of_notMem ht]
  simp

/-- Text that may stand before a terminator. -/
structure CText where
  text : List UInt8
  noNul : (0 : UInt8) ∉ text

/-- `snprintf(buf + off, size, ..)`, where the arguments expand to `text`: undefined outside of
the array. -/
def snprintf (buf : Vector UInt8 n) (off size : ℕ) (text : List UInt8) : Option (Vector UInt8 n) :=
  if size = 0 then some buf else store buf off (text.take (size - 1) ++ [0])

lemma exists_snprintf (buf : Vector UInt8 n) (off size : ℕ) (text : List UInt8) (h0 : 0 < size)
    (h : off + size ≤ n) :
    ∃ buf' rest, snprintf buf off size text = some buf' ∧
      buf'.toList = buf.toList.take off ++ text.take (size - 1) ++ 0 :: rest := by
  have hfit : off + (text.take (size - 1) ++ [0]).length ≤ n := by
    rw [List.length_append, List.length_take, List.length_singleton]
    omega
  refine ⟨blit buf off _ hfit,
    buf.toList.drop (off + (text.take (size - 1) ++ [0]).length), ?_, ?_⟩
  · rw [snprintf, if_neg (by omega), store_of_le hfit]
  · simp only [toList_blit, List.append_assoc, List.singleton_append]

/-- Text followed by zeros, cut at its first terminator. -/
lemma exists_append_replicate (l : List UInt8) {k : ℕ} (hk : 0 < k) :
    ∃ r, l ++ List.replicate k 0 = cText l ++ 0 :: r := by
  induction l with
  | nil =>
    obtain ⟨m, rfl⟩ : ∃ m, k = m + 1 := ⟨k - 1, by omega⟩
    exact ⟨List.replicate m 0, rfl⟩
  | cons c l ih =>
    by_cases hc : c = 0
    · subst hc
      exact ⟨l ++ List.replicate k 0, by simp⟩
    · obtain ⟨r, hr⟩ := ih
      exact ⟨r, by rw [List.cons_append, hr, cText_cons_of_ne hc, List.cons_append]⟩

/-- `toupper` in the C locale. -/
def toupper (c : UInt8) : UInt8 := if 97 ≤ c ∧ c ≤ 122 then c - 32 else c

lemma toupper_eq_zero {c : UInt8} : toupper c = 0 ↔ c = 0 := by
  unfold toupper
  split
  · rename_i h
    obtain ⟨h1, h2⟩ := h
    rw [UInt8.le_iff_toNat_le] at h1 h2
    have h3 : (c - 32).toNat = c.toNat - 32 := by
      rw [UInt8.toNat_sub_of_le]
      · rfl
      · rw [UInt8.le_iff_toNat_le]
        exact le_trans (by decide) h1
    have h4 : (97 : ℕ) ≤ c.toNat := h1
    constructor
    · intro h0
      rw [h0] at h3
      have : (0 : UInt8).toNat = 0 := rfl
      omega
    · rintro rfl
      simp at h4
  · rfl

lemma zero_notMem_map_toupper {t : List UInt8} (h : (0 : UInt8) ∉ t) :
    (0 : UInt8) ∉ t.map toupper := by
  rw [List.mem_map]
  rintro ⟨c, hc, h0⟩
  exact h (toupper_eq_zero.1 h0 ▸ hc)

/-! ## Formats -/

/-- `%`. -/
def percent : UInt8 := 37

/-- What a format expands to when there are no arguments: undefined if it has a conversion. -/
def expand : List UInt8 → Option (List UInt8)
  | [] => some []
  | [c] => if c = percent then none else some [c]
  | c :: d :: fmt =>
    if c = percent then if d = percent then (expand fmt).map (percent :: ·) else none
    else (expand (d :: fmt)).map (c :: ·)

lemma mem_of_expand {fmt text : List UInt8} (h : expand fmt = some text) {b : UInt8}
    (hb : b ∈ text) : b ∈ fmt := by
  fun_induction expand fmt generalizing text with
  | case1 => rwa [← Option.some.inj h] at hb
  | case2 => cases h
  | case3 => rwa [← Option.some.inj h] at hb
  | case4 fmt ih =>
    obtain ⟨t, ht, rfl⟩ := Option.map_eq_some_iff.1 h
    rcases List.mem_cons.1 hb with rfl | hb
    · exact List.mem_cons_self
    · exact List.mem_cons_of_mem _ (List.mem_cons_of_mem _ (ih ht hb))
  | case5 => cases h
  | case6 c d fmt hc ih =>
    obtain ⟨t, ht, rfl⟩ := Option.map_eq_some_iff.1 h
    rcases List.mem_cons.1 hb with rfl | hb
    · exact List.mem_cons_self
    · exact List.mem_cons_of_mem _ (ih ht hb)

/-- The text that a format expands to when there are no arguments. -/
def CText.expand (fmt : CText) : Option CText :=
  (Lib.expand fmt.text).pmap (fun text h => ⟨text, h⟩) fun _ ht h0 =>
    fmt.noNul (mem_of_expand ht h0)

/-- The value an integer takes when it is stored in an `int` of 32 bits. -/
def toInt32 (x : ℤ) : ℤ := x.bmod (2 ^ 32)

/-- The value an integer takes when it is stored in an `unsigned` of 32 bits. -/
def toUInt32 (x : ℤ) : ℕ := (x % 2 ^ 32).toNat

lemma toInt32_natCast {x : ℕ} (hx : x < 2 ^ 31) : toInt32 x = x := by
  unfold toInt32
  rw [Int.bmod_eq_of_le] <;> omega

/-- The values of `int`. -/
def IsInt32 (x : ℤ) : Prop := -2 ^ 31 ≤ x ∧ x < 2 ^ 31

lemma isInt32_toInt32 (x : ℤ) : IsInt32 (toInt32 x) := by
  unfold toInt32 IsInt32
  have hle := Int.le_bmod (x := x) (m := 2 ^ 32) (by omega)
  have hlt := Int.bmod_lt (x := x) (m := 2 ^ 32) (by omega)
  omega

lemma isInt32_natCast {x : ℕ} (hx : x < 2 ^ 31) : IsInt32 x := ⟨by omega, by omega⟩

lemma toUInt32_lt (x : ℤ) : toUInt32 x < 2 ^ 32 := by
  unfold toUInt32
  omega

lemma toUInt32_natCast {x : ℕ} (hx : x < 2 ^ 32) : toUInt32 x = x := by
  unfold toUInt32
  omega

/-- What does not fit in an `int` loses a multiple of 4294967296 when it is stored in one. -/
lemma toInt32_add_le {x : ℤ} (hx : 2 ^ 31 ≤ x) : toInt32 x + 2 ^ 32 ≤ x := by
  unfold toInt32 Int.bmod
  dsimp only
  split <;> omega

/-- The values of a `long` of 64 bits. -/
def IsInt64 (x : ℤ) : Prop := -2 ^ 63 ≤ x ∧ x < 2 ^ 63

instance {x : ℤ} : Decidable (IsInt64 x) := inferInstanceAs (Decidable (_ ∧ _))

/-- Addition in a `long` of 64 bits, undefined when the sum is not one. -/
def addInt64 (x y : ℤ) : Option ℤ :=
  if -2 ^ 63 ≤ x + y ∧ x + y < 2 ^ 63 then some (x + y) else none

/-- Subtraction in a `long` of 64 bits, undefined when the difference is not one. -/
def subInt64 (x y : ℤ) : Option ℤ :=
  if -2 ^ 63 ≤ x - y ∧ x - y < 2 ^ 63 then some (x - y) else none

lemma addInt64_eq_some {x y z : ℤ} : addInt64 x y = some z ↔ IsInt64 (x + y) ∧ z = x + y := by
  rw [addInt64, Option.ite_none_right_eq_some, Option.some.injEq, @eq_comm _ z]
  rfl

lemma subInt64_eq_some {x y z : ℤ} : subInt64 x y = some z ↔ IsInt64 (x - y) ∧ z = x - y := by
  rw [subInt64, Option.ite_none_right_eq_some, Option.some.injEq, @eq_comm _ z]
  rfl

/-- Subtraction in `int`, undefined when the difference is not one. -/
def subInt32 (x y : ℤ) : Option ℤ :=
  if -2 ^ 31 ≤ x - y ∧ x - y < 2 ^ 31 then some (x - y) else none

end LibeventLearn.Lib
