import LibeventLearn.Lib.CMemory

/-!
# The upper-case callback

`read_callback_uppercase` of `eventBaseDemo/buffereventwatermark.cc` takes the input of a buffer
event in chunks of at most 128 bytes, turns each into upper case in a local array and writes it
out.  Its inner loop goes one step too far: after a chunk that fills the array it works on the
byte behind it, which is undefined.
-/

namespace LibeventLearn.EventBaseDemo

open Lib

/-- The size of `tmp`. -/
abbrev tmpLen : ℕ := 128

/-- The two buffers of a `struct bufferevent`. -/
@[ext] structure Bufferevent where
  input : List UInt8
  output : List UInt8

/-- How `bufferevent_read` cuts the input: the number of bytes that its `k`-th call takes from the
front, when it is asked for as many as `tmp` holds. -/
structure BuffereventRead where
  taken : ℕ → List UInt8 → ℕ
  le_tmpLen : ∀ k input, taken k input ≤ tmpLen
  le_length : ∀ k input, taken k input ≤ input.length
  pos : ∀ k input, input ≠ [] → 0 < taken k input

/-- `for (; i <= n; i++) tmp[i] = toupper(tmp[i])`: undefined at an index outside of `tmp`. -/
def upperLoop (n i : ℕ) (tmp : Vector UInt8 tmpLen) : Option (Vector UInt8 tmpLen) :=
  if i ≤ n then
    if h : i < tmpLen then upperLoop n (i + 1) (tmp.set i (toupper tmp[i]))
    else none
  else some tmp
termination_by n + 1 - i

/-- `read_callback_uppercase`, from its `k`-th call of `bufferevent_read` on. -/
def readCallbackUppercase (read : BuffereventRead) (k : ℕ) (bev : Bufferevent)
    (tmp : Vector UInt8 tmpLen) : Option Bufferevent :=
  let n := read.taken k bev.input
  if n = 0 then some bev
  else
    (store tmp 0 (bev.input.take n)).bind fun tmp =>
    (upperLoop n 0 tmp).bind fun tmp =>
    readCallbackUppercase read (k + 1)
      { input := bev.input.drop n, output := bev.output ++ tmp.toList.take n } tmp
termination_by bev.input.length
decreasing_by
  have := read.le_length k bev.input
  simp only [List.length_drop]
  omega

/-- The lengths of the chunks in which the input is read. -/
def chunks (read : BuffereventRead) (k : ℕ) (input : List UInt8) : List ℕ :=
  let n := read.taken k input
  if n = 0 then [] else n :: chunks read (k + 1) (input.drop n)
termination_by input.length
decreasing_by
  have := read.le_length k input
  simp only [List.length_drop]
  omega

/-- The callback ends with all input taken and written out in upper case, and has used no index
outside of `tmp`. -/
def Uppercased (read : BuffereventRead) (bev : Bufferevent) (tmp : Vector UInt8 tmpLen) : Prop :=
  readCallbackUppercase read 0 bev tmp =
    some { input := [], output := bev.output ++ bev.input.map toupper }

variable {read : BuffereventRead} {bev : Bufferevent} {tmp : Vector UInt8 tmpLen} {n i k : ℕ}
  {input : List UInt8}

/-! ## The inner loop -/

/-- The loop runs over the positions up to `n`, which is one too many. -/
lemma upperLoop_of_lt (hn : n < tmpLen) (i : ℕ) (tmp : Vector UInt8 tmpLen) (hi : i ≤ n + 1) :
    ∃ tmp', upperLoop n i tmp = some tmp' ∧ ∀ j, tmp'.toList[j]? =
      if i ≤ j ∧ j ≤ n then tmp.toList[j]?.map toupper else tmp.toList[j]? := by
  induction hd : n + 1 - i generalizing i tmp with
  | zero =>
    refine ⟨tmp, ?_, fun j => ?_⟩
    · rw [upperLoop, if_neg (by omega)]
    · rw [if_neg (by omega)]
  | succ d ih =>
    have hlt : i < tmpLen := by omega
    obtain ⟨tmp', hrun, hcell⟩ := ih (i + 1) (tmp.set i (toupper tmp[i])) (by omega) (by omega)
    refine ⟨tmp', ?_, fun j => ?_⟩
    · rw [upperLoop, if_pos (by omega), dif_pos hlt, hrun]
    · rw [hcell, Vector.toList_set]
      rcases Nat.lt_trichotomy j i with hj | rfl | hj
      · rw [if_neg (by omega), if_neg (by omega), List.getElem?_set_ne (by omega)]
      · rw [if_neg (by omega), if_pos (by omega), List.getElem?_set_self (by simpa using hlt),
          List.getElem?_eq_getElem (by simpa using hlt)]
        simp
      · rw [List.getElem?_set_ne (by omega)]
        by_cases hjn : j ≤ n
        · rw [if_pos (by omega), if_pos (by omega)]
        · rw [if_neg (by omega), if_neg (by omega)]

/-- Behind a chunk that fills the array the loop leaves it. -/
lemma upperLoop_full (hi : i ≤ tmpLen) : upperLoop tmpLen i tmp = none := by
  induction hd : tmpLen - i generalizing i tmp with
  | zero => rw [upperLoop, if_pos (by omega), dif_neg (by omega)]
  | succ d ih => rw [upperLoop, if_pos (by omega), dif_pos (by omega), ih (by omega) (by omega)]

/-! ## The outer loop -/

lemma taken_eq_zero_iff : read.taken k input = 0 ↔ input = [] := by
  constructor
  · intro h
    by_contra hne
    have := read.pos k input hne
    omega
  · rintro rfl
    exact Nat.le_zero.1 (read.le_length k [])

/-- One round with a chunk that does not fill the array. -/
lemma round_of_lt (tmp : Vector UInt8 tmpLen) (h0 : read.taken k bev.input ≠ 0)
    (hlt : read.taken k bev.input < tmpLen) :
    ∃ tmp', readCallbackUppercase read k bev tmp =
      readCallbackUppercase read (k + 1)
        { input := bev.input.drop (read.taken k bev.input)
          output := bev.output ++ (bev.input.take (read.taken k bev.input)).map toupper } tmp' := by
  have hlen := read.le_length k bev.input
  have hfit : 0 + (bev.input.take (read.taken k bev.input)).length ≤ tmpLen := by
    rw [List.length_take]
    omega
  obtain ⟨tmp', hrun, hcell⟩ := upperLoop_of_lt hlt 0
    (blit tmp 0 (bev.input.take (read.taken k bev.input)) hfit) (Nat.zero_le _)
  refine ⟨tmp', ?_⟩
  rw [readCallbackUppercase, if_neg h0, store_of_le hfit, Option.bind_some, hrun,
    Option.bind_some]
  -- the first `n` bytes of the array are the chunk in upper case
  have htake : tmp'.toList.take (read.taken k bev.input) =
      (bev.input.take (read.taken k bev.input)).map toupper := by
    refine List.ext_getElem? fun j => ?_
    rw [List.getElem?_take, List.getElem?_map, List.getElem?_take, hcell, toList_blit]
    split
    · rw [if_pos ⟨Nat.zero_le j, by omega⟩, List.take_zero, List.nil_append,
        List.getElem?_append_left (by rw [List.length_take]; omega), List.getElem?_take,
        if_pos ‹_›]
    · rfl
  rw [htake]

/-- One round with a chunk that does. -/
lemma round_full (hfull : read.taken k bev.input = tmpLen) :
    readCallbackUppercase read k bev tmp = none := by
  rw [readCallbackUppercase, if_neg (by rw [hfull]; decide), hfull]
  cases store tmp 0 (bev.input.take tmpLen) with
  | none => rfl
  | some tmp' => rw [Option.bind_some, upperLoop_full (Nat.zero_le _), Option.bind_none]

lemma chunks_of_ne_zero (h0 : read.taken k input ≠ 0) :
    chunks read k input =
      read.taken k input :: chunks read (k + 1) (input.drop (read.taken k input)) := by
  rw [chunks, if_neg h0]

lemma le_length_of_mem_chunks (hn : n ∈ chunks read k input) : n ≤ input.length := by
  induction hl : input.length using Nat.strong_induction_on generalizing k input with
  | _ l ih =>
    subst hl
    have hle := read.le_length k input
    by_cases h0 : read.taken k input = 0
    · rw [chunks, if_pos h0] at hn
      exact absurd hn List.not_mem_nil
    · rw [chunks_of_ne_zero h0, List.mem_cons] at hn
      rcases hn with rfl | hn
      · exact hle
      · have hdrop : (input.drop (read.taken k input)).length < input.length := by
          rw [List.length_drop]
          omega
        exact (ih _ hdrop hn rfl).trans hdrop.le

/-- From any call of `bufferevent_read` on. -/
lemma uppercased_iff_from (read : BuffereventRead) (k : ℕ) (bev : Bufferevent)
    (tmp : Vector UInt8 tmpLen) :
    readCallbackUppercase read k bev tmp =
        some { input := [], output := bev.output ++ bev.input.map toupper } ↔
      ∀ n ∈ chunks read k bev.input, n < tmpLen := by
  induction hl : bev.input.length using Nat.strong_induction_on generalizing k bev tmp with
  | _ l ih =>
    subst hl
    by_cases h0 : read.taken k bev.input = 0
    · rw [readCallbackUppercase, if_pos h0, chunks, if_pos h0]
      have hnil := taken_eq_zero_iff.1 h0
      simp only [hnil, List.map_nil, List.append_nil, List.not_mem_nil, false_implies,
        implies_true, iff_true]
      rw [← hnil]
    · rw [chunks_of_ne_zero h0, List.forall_mem_cons]
      rcases Nat.lt_or_eq_of_le (read.le_tmpLen k bev.input) with hlt | hfull
      · obtain ⟨tmp', hround⟩ := round_of_lt tmp h0 hlt
        have hle := read.le_length k bev.input
        have hrest := ih (bev.input.drop (read.taken k bev.input)).length
          (by rw [List.length_drop]; omega) (k + 1)
          { input := bev.input.drop (read.taken k bev.input)
            output := bev.output ++ (bev.input.take (read.taken k bev.input)).map toupper } tmp' rfl
        simp only [List.append_assoc, ← List.map_append, List.take_append_drop] at hrest
        rw [hround, hrest]
        exact (and_iff_right hlt).symm
      · rw [round_full hfull, hfull]
        exact ⟨fun h => absurd h.symm (Option.some_ne_none _), fun h => absurd h.1 (lt_irrefl _)⟩

/-- **The callback works exactly if no chunk fills its array.** -/
theorem uppercased_iff (read : BuffereventRead) (bev : Bufferevent) (tmp : Vector UInt8 tmpLen) :
    Uppercased read bev tmp ↔ ∀ n ∈ chunks read 0 bev.input, n < tmpLen :=
  uppercased_iff_from read 0 bev tmp

/-- Every call takes as much as there is and fits. -/
def BuffereventRead.greedy : BuffereventRead where
  taken _ input := min input.length tmpLen
  le_tmpLen _ _ := Nat.min_le_right _ _
  le_length _ _ := Nat.min_le_left _ _
  pos _ _ h := Nat.lt_min.2 ⟨List.length_pos_iff.2 h, by decide⟩

theorem uppercased_iff_hi :
    Uppercased BuffereventRead.greedy ⟨[104, 105], []⟩ (Vector.replicate _ 0) := by
  refine (uppercased_iff _ _ _).2 fun n hn => ?_
  exact lt_of_le_of_lt (le_length_of_mem_chunks hn) (by decide)

/-- A stream of 128 bytes, read in one chunk. -/
theorem not_uppercased_full :
    ¬ Uppercased BuffereventRead.greedy ⟨List.replicate tmpLen 97, []⟩ (Vector.replicate _ 0) := by
  intro h
  have hfull : BuffereventRead.greedy.taken 0 (List.replicate tmpLen 97) = tmpLen := by
    simp [BuffereventRead.greedy]
  have hnone : readCallbackUppercase .greedy 0 ⟨List.replicate tmpLen 97, []⟩
      (Vector.replicate _ 0) = none := round_full hfull
  exact Option.some_ne_none _ (h.symm.trans hnone)

end LibeventLearn.EventBaseDemo
