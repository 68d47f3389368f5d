import LibeventLearn.Lib.Run
import LibeventLearn.Lib.CMemory
import LibeventLearn.Epoll.Kernel

/-!
# The client

The model of the loops of `epollDemo/epollClient.cpp`: a line is read from the terminal, the
whole array it was read into is sent, and the answer is read until a `read` returns less than it
was asked for.  A store outside of `input` or `recvline` is undefined.
-/

namespace LibeventLearn.EpollDemo

open Lib Epoll

/-- `MAX_LINE`. -/
abbrev maxLine : ℕ := 1024

/-- The size of `input`. -/
abbrev inputLen : ℕ := 100

/-- The local variables of `main`, and whether it is in its inner loop. -/
@[ext] structure Client where
  input : Vector UInt8 inputLen
  recvline : Vector UInt8 (maxLine + 1)
  count : ℕ
  reading : Bool

/-- What the client does with the outside. -/
inductive ClientCall where
  /-- The bytes handed to `send`. -/
  | send (bytes : List UInt8)
  /-- The text printed as the server's answer. -/
  | print (text : List UInt8)
deriving DecidableEq

/-- The client before its first line; nothing has been stored into `input`. -/
def Client.start (input : Vector UInt8 inputLen) : Client where
  input := input
  recvline := Vector.replicate _ 0
  count := 0
  reading := false

/-- `fgets(input, 100, stdin)` returns a line, which is printed, and `input` is sent. -/
def sendLine (line : List UInt8) (c : Client) : Option (Client × List ClientCall) :=
  (store c.input 0 (line ++ [0])).bind fun input =>
  (cString input).bind fun _ =>
  some ({ c with input := input, count := 0, reading := true }, [.send input.toList])

/-- `recvline[count] = '\0'`, and the answer is printed. -/
def printAnswer (c : Client) : Option (Client × List ClientCall) :=
  (store c.recvline c.count [0]).bind fun recvline =>
  (cString recvline).bind fun text =>
  some ({ c with recvline := recvline, reading := false }, [.print text])

/-- The body of the inner loop, around `read(sockfd, recvline + count, MAX_LINE)`. -/
def readAnswer (r : ReadResult maxLine) (c : Client) : Option (Client × List ClientCall) :=
  match r with
  | .data bytes _ _ =>
    (store c.recvline c.count bytes).bind fun recvline =>
    let c := { c with recvline := recvline, count := c.count + bytes.length }
    if bytes.length = maxLine then some (c, []) else printAnswer c
  | .error => some ({ c with reading := false }, [])
  | .eof => printAnswer c

/-! ## What the loops do -/

variable {c : Client} {line bytes : List UInt8}

/-- A line that fits into `input` is sent with its terminator and whatever was there behind
it. -/
lemma sendLine_spec (h : line.length < inputLen) :
    ∃ input : Vector UInt8 inputLen,
      sendLine line c =
        some ({ c with input := input, count := 0, reading := true }, [.send input.toList]) ∧
      input.toList = line ++ 0 :: c.input.toList.drop (line.length + 1) := by
  have hfit : 0 + (line ++ [0]).length ≤ inputLen := by
    simp only [List.length_append, List.length_singleton]
    omega
  have hlist : (blit c.input 0 (line ++ [0]) hfit).toList =
      line ++ 0 :: c.input.toList.drop (line.length + 1) := by
    rw [toList_blit]
    simp
  refine ⟨blit c.input 0 (line ++ [0]) hfit, ?_, hlist⟩
  have htext : ∃ text, cString (blit c.input 0 (line ++ [0]) hfit) = some text := by
    rw [cString, hlist, strlen_append_zero]
    exact ⟨_, rfl⟩
  obtain ⟨text, htext⟩ := htext
  rw [sendLine, store_of_le hfit, Option.bind_some, htext, Option.bind_some]

/-- An answer that is printed ends the reading. -/
lemma printAnswer_reading {r : Client × List ClientCall} (hr : printAnswer c = some r) :
    r.1.reading = false := by
  simp only [printAnswer, Option.bind_eq_some_iff] at hr
  obtain ⟨_, _, _, _, hr⟩ := hr
  rw [← Option.some.inj hr]

/-- A first `read` that returns all it was asked for. -/
lemma readAnswer_first_full {result : ReadResult maxLine} (hc : c.count = 0)
    (hlen : result.bytes.length = maxLine) :
    ∃ recvline, readAnswer result c =
      some ({ c with recvline := recvline, count := maxLine }, []) := by
  cases result with
  | eof => cases hlen
  | error => cases hlen
  | data bytes hpos hle =>
    change bytes.length = maxLine at hlen
    have hfit : c.count + bytes.length ≤ maxLine + 1 := by omega
    have hcount : c.count + bytes.length = maxLine := by omega
    refine ⟨blit c.recvline c.count bytes hfit, ?_⟩
    rw [readAnswer, store_of_le hfit, Option.bind_some, if_pos hlen]
    exact congrArg (fun k => some ({ c with
      recvline := blit c.recvline c.count bytes hfit, count := k }, [])) hcount

variable {hpos : 0 < bytes.length} {hle : bytes.length ≤ maxLine}

/-- A `read` that returns less ends the answer, if it is defined. -/
lemma readAnswer_short (hlen : bytes.length ≠ maxLine) {r : Client × List ClientCall}
    (hr : readAnswer (.data bytes hpos hle) c = some r) : r.1.reading = false := by
  simp only [readAnswer, if_neg hlen, Option.bind_eq_some_iff] at hr
  obtain ⟨_, _, hr⟩ := hr
  exact printAnswer_reading hr

/-- After a full `read`, the next one stores outside of `recvline`, or leaves no room for the
terminator. -/
lemma readAnswer_second (hc : c.count = maxLine) :
    readAnswer (.data bytes hpos hle) c = none := by
  by_cases hfit : c.count + bytes.length ≤ maxLine + 1
  · have hone : bytes.length = 1 := by omega
    have hlen : bytes.length ≠ maxLine := by
      rw [hone]
      decide
    rw [readAnswer, store_of_le hfit, Option.bind_some, if_neg hlen, printAnswer,
      store_of_lt (by simp only [List.length_singleton]; omega)]
    rfl
  · rw [readAnswer, store_of_lt (by omega)]
    rfl

end LibeventLearn.EpollDemo
