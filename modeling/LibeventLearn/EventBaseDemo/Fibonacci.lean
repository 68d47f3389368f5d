import LibeventLearn.EventBaseDemo.Uppercase
import LibeventLearn.Lib.Decimal
import LibeventLearn.Lib.Recurrence
import LibeventLearn.Lib.Run

/-!
# The callback that writes Fibonacci numbers

`write_callback_fibonacci` of `eventBaseDemo/buffereventwatermark.cc` writes out at least 1024
bytes of decimal numbers, each the sum of the two before it, and keeps the last two for the next
time.  The sums are `unsigned long`, and so those of the exact sequence modulo 2^64; from any
pair with a second number other than 0, not even one invocation gets by without wrapping around.
-/

namespace LibeventLearn.EventBaseDemo

open Lib

/-- What the callback uses of `struct evbuffer`: a queue of bytes, to which text is added at the
end, and which is moved to the output of a buffer event. -/
structure EvbufferLib where
  Evbuffer : Type
  /-- The bytes in the queue. -/
  bytes : Evbuffer → List UInt8
  /-- `evbuffer_new`. -/
  new : Evbuffer
  /-- `evbuffer_get_length`. -/
  getLength : Evbuffer → ℕ
  /-- `evbuffer_add_printf`, with what the format expands to. -/
  addPrintf : Evbuffer → List UInt8 → Evbuffer
  /-- `bufferevent_write_buffer`. -/
  writeBuffer : Bufferevent → Evbuffer → Bufferevent
  bytes_new : bytes new = []
  getLength_eq : ∀ ev, getLength ev = (bytes ev).length
  bytes_addPrintf : ∀ ev text, bytes (addPrintf ev text) = bytes ev ++ text
  writeBuffer_eq : ∀ bev ev, writeBuffer bev ev = { bev with output := bev.output ++ bytes ev }

/-- The queue as the list of its bytes. -/
def EvbufferLib.list : EvbufferLib where
  Evbuffer := List UInt8
  bytes ev := ev
  new := []
  getLength ev := ev.length
  addPrintf ev text := ev ++ text
  writeBuffer bev ev := { bev with output := bev.output ++ ev }
  bytes_new := rfl
  getLength_eq _ := rfl
  bytes_addPrintf _ _ := rfl
  writeBuffer_eq _ _ := rfl

/-- `struct count`. -/
@[ext] structure Count where
  lastFib : Vector UInt64 2

/-- `c->last_fib[0] + c->last_fib[1]`. -/
def Count.next (c : Count) : UInt64 := c.lastFib[0] + c.lastFib[1]

/-- `c->last_fib[0] = c->last_fib[1]; c->last_fib[1] = next`. -/
def Count.advance (c : Count) : Count :=
  { lastFib := (c.lastFib.set 0 c.lastFib[1]).set 1 c.next }

/-- What `"%lu"` expands to. -/
def formatLu (n : UInt64) : List UInt8 := decimal n.toNat

/-- The loop of `write_callback_fibonacci`. -/
def fibonacciLoop (lib : EvbufferLib) (ev : lib.Evbuffer) (c : Count) : lib.Evbuffer × Count :=
  if 1024 > lib.getLength ev then
    fibonacciLoop lib (lib.addPrintf ev (formatLu c.next)) c.advance
  else (ev, c)
termination_by 1024 - lib.getLength ev
decreasing_by
  have hpos := length_decimal_pos c.next.toNat
  rw [lib.getLength_eq, lib.bytes_addPrintf, List.length_append, ← lib.getLength_eq, formatLu]
  omega

/-- `write_callback_fibonacci`. -/
def writeCallbackFibonacci (lib : EvbufferLib) (bev : Bufferevent) (c : Count) :
    Bufferevent × Count :=
  let (ev, c) := fibonacciLoop lib lib.new c
  (lib.writeBuffer bev ev, c)

/-- One invocation, for any buffer event.  Its outputs are the bytes that it has written. -/
def fibonacciStep (lib : EvbufferLib) (bev : Bufferevent) (c : Count) :
    Option (Count × List UInt8) :=
  let (bev', c) := writeCallbackFibonacci lib bev c
  some (c, bev'.output.drop bev.output.length)

/-- The terms of the exact sequence, of which the first two are in `last_fib`. -/
def Count.term (c : Count) (k : ℕ) : ℕ := recurrence c.lastFib[0].toNat c.lastFib[1].toNat k

/-- The pair after `m` rounds of the loop. -/
def Count.after (c : Count) (m : ℕ) : Count :=
  { lastFib := #v[UInt64.ofNat (c.term m), UInt64.ofNat (c.term (m + 1))] }

/-- The text that `m` rounds of the loop add. -/
def Count.text (c : Count) (m : ℕ) : List UInt8 :=
  decimals (fun k => c.term (k + 2) % 2 ^ 64) m

variable {lib : EvbufferLib} {ev : lib.Evbuffer} {bev : Bufferevent} {c : Count} {m n k : ℕ}

/-! ## Rounds -/

namespace Count

lemma ext_cells {c d : Count} (h₀ : c.lastFib[0] = d.lastFib[0])
    (h₁ : c.lastFib[1] = d.lastFib[1]) : c = d := by
  ext i hi
  obtain rfl | rfl : i = 0 ∨ i = 1 := by omega
  · rw [h₀]
  · rw [h₁]

/-- Behind `m` rounds, the sequence goes on modulo 2^64. -/
lemma term_after (c : Count) (m k : ℕ) :
    (c.after m).term k % 2 ^ 64 = c.term (m + k) % 2 ^ 64 := by
  have h₀ : (c.after m).lastFib[0].toNat = c.term m % 2 ^ 64 := UInt64.toNat_ofNat'
  have h₁ : (c.after m).lastFib[1].toNat = c.term (m + 1) % 2 ^ 64 := UInt64.toNat_ofNat'
  rw [term, h₀, h₁, recurrence_mod, term, term, recurrence_add, term]

lemma after_after (c : Count) (m n : ℕ) : (c.after m).after n = c.after (m + n) := by
  have hofNat : ∀ k, UInt64.ofNat ((c.after m).term k) = UInt64.ofNat (c.term (m + k)) := by
    intro k
    rw [← UInt64.ofNat_mod_size, term_after, UInt64.ofNat_mod_size]
  rw [after, hofNat, hofNat]
  rfl

lemma after_zero (c : Count) : c.after 0 = c :=
  ext_cells UInt64.ofNat_toNat UInt64.ofNat_toNat

lemma next_eq (c : Count) : c.next = UInt64.ofNat (c.term 2) := by
  show c.lastFib[0] + c.lastFib[1] = UInt64.ofNat (c.lastFib[1].toNat + c.lastFib[0].toNat)
  rw [UInt64.ofNat_add, UInt64.ofNat_toNat, UInt64.ofNat_toNat, UInt64.add_comm]

lemma advance_eq (c : Count) : c.advance = c.after 1 := by
  refine ext_cells ?_ ?_
  · show ((c.lastFib.set 0 c.lastFib[1]).set 1 c.next)[0] = UInt64.ofNat c.lastFib[1].toNat
    rw [Vector.getElem_set_ne _ _ (by omega), Vector.getElem_set_self, UInt64.ofNat_toNat]
  · show ((c.lastFib.set 0 c.lastFib[1]).set 1 c.next)[1] = UInt64.ofNat (c.term 2)
    rw [Vector.getElem_set_self, next_eq]

lemma text_one (c : Count) : c.text 1 = formatLu c.next := by
  rw [text, decimals_one, formatLu, next_eq, UInt64.toNat_ofNat']

lemma text_add (c : Count) (m n : ℕ) : c.text (m + n) = c.text m ++ (c.after m).text n := by
  rw [text, decimals_add, text, text]
  refine congrArg _ (decimals_congr fun k _ => ?_)
  rw [term_after, Nat.add_assoc]

end Count

/-! ## Invocations -/

/-- The loop makes some number of rounds, until there are 1024 bytes. -/
lemma fibonacciLoop_spec (lib : EvbufferLib) (ev : lib.Evbuffer) (c : Count) :
    ∃ m, (fibonacciLoop lib ev c).2 = c.after m ∧
      lib.bytes (fibonacciLoop lib ev c).1 = lib.bytes ev ++ c.text m ∧
      1024 ≤ (lib.bytes ev ++ c.text m).length := by
  induction ev, c using fibonacciLoop.induct with
  | case1 ev c hlt ih =>
    obtain ⟨m, hc, hev, hlen⟩ := ih
    rw [Count.advance_eq] at hc hev hlen
    have htext : lib.bytes (lib.addPrintf ev (formatLu c.next)) ++ (c.after 1).text m =
        lib.bytes ev ++ c.text (1 + m) := by
      rw [lib.bytes_addPrintf, Count.text_add, Count.text_one, List.append_assoc]
    rw [htext] at hev hlen
    rw [fibonacciLoop, if_pos hlt, Count.advance_eq]
    exact ⟨1 + m, by rw [hc, Count.after_after], hev, hlen⟩
  | case2 ev c hge =>
    rw [fibonacciLoop, if_neg hge]
    refine ⟨0, c.after_zero.symm, (List.append_nil _).symm, ?_⟩
    rw [Count.text, decimals_zero, List.append_nil, ← lib.getLength_eq]
    omega

/-- One invocation writes the text of at least so many rounds that there are 1024 bytes. -/
lemma writeCallbackFibonacci_spec (lib : EvbufferLib) (bev : Bufferevent) (c : Count) :
    ∃ m, writeCallbackFibonacci lib bev c =
        ({ bev with output := bev.output ++ c.text m }, c.after m) ∧
      1024 ≤ (c.text m).length := by
  obtain ⟨m, hc, hev, hlen⟩ := fibonacciLoop_spec lib lib.new c
  rw [lib.bytes_new, List.nil_append] at hev hlen
  refine ⟨m, ?_, hlen⟩
  show (lib.writeBuffer bev (fibonacciLoop lib lib.new c).1, (fibonacciLoop lib lib.new c).2) = _
  rw [lib.writeBuffer_eq, hev, hc]

lemma fibonacciStep_spec (lib : EvbufferLib) (bev : Bufferevent) (c : Count) :
    ∃ m, fibonacciStep lib bev c = some (c.after m, c.text m) ∧ 1024 ≤ (c.text m).length := by
  obtain ⟨m, hw, hlen⟩ := writeCallbackFibonacci_spec lib bev c
  refine ⟨m, ?_, hlen⟩
  rw [fibonacciStep, hw]
  show some (c.after m, (bev.output ++ c.text m).drop bev.output.length) = _
  rw [List.drop_left]

/-- **All invocations together write the terms of the sequence modulo 2^64**, in order and each
of them once, and so many of them that there are 1024 bytes for each invocation. -/
theorem fibonacci_written (lib : EvbufferLib) (bevs : List Bufferevent) (c : Count) :
    ∃ m, exec (fibonacciStep lib) bevs c =
        some (c.after m, decimals (fun k => c.term (k + 2) % 2 ^ 64) m) ∧
      1024 * bevs.length ≤ (decimals (fun k => c.term (k + 2) % 2 ^ 64) m).length := by
  induction bevs generalizing c with
  | nil => exact ⟨0, by rw [exec_nil, c.after_zero, decimals_zero], Nat.zero_le _⟩
  | cons bev bevs ih =>
    obtain ⟨m, hstep, hlen⟩ := fibonacciStep_spec lib bev c
    obtain ⟨n, hrest, hlen'⟩ := ih (c.after m)
    have htext : decimals (fun k => c.term (k + 2) % 2 ^ 64) (m + n) =
        c.text m ++ (c.after m).text n := c.text_add m n
    refine ⟨m + n, exec_cons_eq_some.2 ⟨_, _, hstep, hrest, ?_⟩, ?_⟩
    · rw [Count.after_after, htext]
      rfl
    · have hrest' : 1024 * bevs.length ≤ ((c.after m).text n).length := hlen'
      rw [htext, List.length_append, List.length_cons]
      omega

/-- Two invocations, from 0 and 1. -/
theorem fibonacci_written_list :
    ∃ m, exec (fibonacciStep .list) [⟨[], []⟩, ⟨[], []⟩] { lastFib := #v[0, 1] } =
        some (Count.after { lastFib := #v[0, 1] } m,
          decimals (fun k => Count.term { lastFib := #v[0, 1] } (k + 2) % 2 ^ 64) m) ∧
      1024 * 2 ≤
        (decimals (fun k => Count.term { lastFib := #v[0, 1] } (k + 2) % 2 ^ 64) m).length :=
  fibonacci_written .list [⟨[], []⟩, ⟨[], []⟩] { lastFib := #v[0, 1] }

/-- What is written is the text of the exact terms, up to some term. -/
def WrittenExactly (lib : EvbufferLib) (bevs : List Bufferevent) (c : Count) : Prop :=
  ∃ c' m, exec (fibonacciStep lib) bevs c = some (c', decimals (fun k => c.term (k + 2)) m)

/-- From 0 and 1, the 93rd number of the first invocation is not the exact one: the text has a
`2` where that of the exact terms has a `9`. -/
theorem not_writtenExactly :
    ¬ WrittenExactly EvbufferLib.list [⟨[], []⟩] { lastFib := #v[0, 1] } := by
  rintro ⟨c', m, hexec⟩
  obtain ⟨n, hstep, hlen⟩ := fibonacciStep_spec .list ⟨[], []⟩ { lastFib := #v[0, 1] }
  obtain ⟨r, r', hr, hr', heq⟩ := exec_cons_eq_some.1 hexec
  obtain rfl := Option.some.inj (hstep.symm.trans hr)
  obtain rfl := Option.some.inj hr'
  have hterm : ∀ k, Count.term { lastFib := #v[0, 1] } k = Nat.fib k := recurrence_fib
  have htext := (Prod.mk.inj heq).2
  simp only [Count.text, hterm, List.append_nil] at htext hlen
  have hwrapped : (decimals (fun k => Nat.fib (k + 2) % 2 ^ 64) 93).length = 946 := by
    decide +kernel
  have hexact : (decimals (fun k => Nat.fib (k + 2)) 93).length = 947 := by decide +kernel
  -- both texts go on behind the 93rd number
  have hn : 93 < n := lt_of_length_decimals_lt (hwrapped.trans_lt (by omega))
  have hm : 93 < m := lt_of_length_decimals_lt (hexact.trans_lt (htext ▸ by omega))
  have hchar : (decimals (fun k => Nat.fib (k + 2) % 2 ^ 64) n)[928]? =
      (decimals (fun k => Nat.fib (k + 2)) m)[928]? := by rw [htext]
  rw [getElem?_decimals (by omega) hn.le, getElem?_decimals (by omega) hm.le] at hchar
  revert hchar
  decide +kernel

/-! ## Where the numbers wrap around -/

/-- As long as the terms are below 2^64, there are too few of them to fill 1024 bytes. -/
lemma Count.length_text_lt (hb : 0 < c.lastFib[1].toNat)
    (hlt : ∀ k < m, c.term (k + 2) < 2 ^ 64) : (c.text m).length < 1024 := by
  have hbound : (decimals (fun i => (2 ^ 64 - 1) / Nat.fib (i + 1)) 92).length < 1024 := by
    decide +kernel
  rcases Nat.eq_zero_or_pos m with rfl | hm
  · exact Nat.zero_lt_succ _
  have hlast : c.term (m + 1) < 2 ^ 64 := by
    have := hlt (m - 1) (by omega)
    rwa [show m - 1 + 2 = m + 1 by omega] at this
  -- the terms grow so fast that there are at most 92 of them
  have hm92 : m ≤ 92 := by
    by_contra hgt
    have hfib : Nat.fib 94 ≤ Nat.fib (m + 1) := Nat.fib_mono (by omega)
    have hone : Nat.fib (m + 1) ≤ c.term 1 * Nat.fib (m + 1) := Nat.le_mul_of_pos_left _ hb
    have hgrow : c.term 1 * Nat.fib (m + 1) ≤ c.term (1 + m) := mul_fib_le_recurrence _ _ 0 m
    have h94 : 2 ^ 64 ≤ Nat.fib 94 := by decide
    rw [Nat.add_comm 1 m] at hgrow
    omega
  -- and each of them is the smaller, the more of them follow
  have hterm : ∀ k < m,
      c.term (k + 2) % 2 ^ 64 ≤ (2 ^ 64 - 1) / Nat.fib (m - 1 - k + 1) := by
    intro k hk
    have hgrow : c.term (k + 1 + 1) * Nat.fib (m - 1 - k + 1) ≤ c.term (k + 1 + 1 + (m - 1 - k)) :=
      mul_fib_le_recurrence _ _ (k + 1) (m - 1 - k)
    rw [show k + 1 + 1 + (m - 1 - k) = m + 1 by omega] at hgrow
    rw [Nat.mod_eq_of_lt (hlt k hk), Nat.le_div_iff_mul_le (Nat.fib_pos.2 (by omega))]
    exact hgrow.trans (by omega)
  calc (c.text m).length
      ≤ (decimals (fun k => (2 ^ 64 - 1) / Nat.fib (m - 1 - k + 1)) m).length :=
        length_decimals_le hterm
    _ = (decimals (fun i => (2 ^ 64 - 1) / Nat.fib (i + 1)) m).length :=
        length_decimals_reflect (fun i => (2 ^ 64 - 1) / Nat.fib (i + 1)) m
    _ ≤ (decimals (fun i => (2 ^ 64 - 1) / Nat.fib (i + 1)) 92).length :=
        length_decimals_mono _ hm92
    _ < 1024 := hbound

/-- **No invocation gets by with exact numbers**, unless the second of the pair is 0. -/
theorem exists_wrapped (lib : EvbufferLib) (bev : Bufferevent) (hb : 0 < c.lastFib[1].toNat) :
    ∃ m, writeCallbackFibonacci lib bev c =
        ({ bev with output := bev.output ++ c.text m }, c.after m) ∧
      ∃ k < m, 2 ^ 64 ≤ c.term (k + 2) := by
  obtain ⟨m, hw, hlen⟩ := writeCallbackFibonacci_spec lib bev c
  refine ⟨m, hw, ?_⟩
  by_contra hno
  refine absurd hlen (not_le.2 (c.length_text_lt hb fun k hk => ?_))
  exact not_le.1 fun hle => hno ⟨k, hk, hle⟩

end LibeventLearn.EventBaseDemo
