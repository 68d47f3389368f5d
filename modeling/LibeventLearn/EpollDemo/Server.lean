import LibeventLearn.Lib.Run
import LibeventLearn.Lib.CMemory
import LibeventLearn.Epoll.Kernel

/-!
# The upper-casing server

The model of `epollDemo/epollServer.cpp`: the global buffer, `to_upper`, and the loops of
`main` over the batches that `epoll_wait` returns.  What is printed of the buffer is part of
the model, because `%s` reads it up to a terminator; the other console output is not.
-/

namespace LibeventLearn.EpollDemo

open Lib Epoll

/-- `BUFFER_MAX_LEN`. -/
abbrev bufferMaxLen : ℕ := 4096

/-- The number of bytes asked for in one `read`. -/
abbrev readLen : ℕ := 5

/-- The global `buffer`, and the kernel with `data.fd` as user data. -/
@[ext] structure Server where
  buffer : Vector UInt8 bufferMaxLen
  kernel : Kernel ℤ

/-- An element of the array `epoll_wait` fills: `events` and `data.fd`. -/
structure Entry where
  events : Mask
  fd : ℤ
deriving DecidableEq

/-- What the environment decides while one entry is handled. -/
structure Io where
  /-- The result of `accept`: a descriptor, or failure. -/
  accept : Option ℤ
  /-- The result of `read(client_fd, buffer, 5)`. -/
  read : ReadResult readLen
  /-- Whether the kernel grants an `epoll_ctl` call that is in order. -/
  ctl : CtlOp → ℤ → Bool

/-- The calls the server makes, in their order. -/
inductive Call where
  | accept (fd : ℤ) (result : Option ℤ)
  /-- `read` returned these bytes, none at the end of the stream or on an error. -/
  | read (fd : ℤ) (bytes : List UInt8)
  | write (fd : ℤ) (bytes : List UInt8)
  | close (fd : ℤ)
  /-- The part of the buffer that `%s` prints. -/
  | print (text : List UInt8)
deriving DecidableEq

/-! ## `to_upper` -/

section ToUpper

variable {n : ℕ}

/-- The loop of `to_upper` from `i` on; the length of the string is found anew in each round. -/
def toUpperFrom (str : Vector UInt8 n) (i : ℕ) : Option (Vector UInt8 n) :=
  match h : strlen str.toList with
  | none => none
  | some len =>
    if hi : i < len then
      have hn : i < n := by
        have := strlen_lt_length h
        rw [Vector.length_toList] at this
        omega
      toUpperFrom (str.set i (toupper str[i])) (i + 1)
    else some str
termination_by n - i

/-- `to_upper`. -/
def toUpper (str : Vector UInt8 n) : Option (Vector UInt8 n) := toUpperFrom str 0

end ToUpper

/-! ## The loops of `main` -/

/-- The buffer after `buffer[0] = '\0'` and a `read` of these bytes. -/
def readInto (bytes : List UInt8) (h : bytes.length ≤ readLen)
    (buffer : Vector UInt8 bufferMaxLen) : Vector UInt8 bufferMaxLen :=
  blit (buffer.set 0 0) 0 bytes (by
    rw [Nat.zero_add]
    exact h.trans (by decide))

/-- The branch of the listening socket. -/
def acceptClient (listenFd : ℤ) (io : Io) (s : Server) : Server × List Call :=
  match io.accept with
  | none => (s, [.accept listenFd none])
  | some clientFd =>
    let k := s.kernel.opened clientFd
    let k := (k.epollCtl (io.ctl .add clientFd) .add clientFd (epollIn ||| epollEt, clientFd)).2
    ({ s with kernel := k }, [.accept listenFd (some clientFd)])

/-- The `EPOLLIN` branch. -/
def readClient (clientFd : ℤ) (io : Io) (s : Server) : Option (Server × List Call) :=
  match io.read with
  | .error => some ({ s with buffer := s.buffer.set 0 0 }, [.read clientFd []])
  | .eof =>
    let k := (s.kernel.epollCtl (io.ctl .del clientFd) .del clientFd (0, clientFd)).2
    some ({ buffer := s.buffer.set 0 0, kernel := k.close clientFd },
      [.read clientFd [], .close clientFd])
  | .data bytes _ hle =>
    let buffer := readInto bytes hle s.buffer
    (cString buffer).bind fun text =>
    let buffer := buffer.set bytes.length 0 (lt_of_le_of_lt hle (by decide))
    (toUpper buffer).bind fun buffer =>
    (cString buffer).bind fun reply =>
    let k :=
      (s.kernel.epollCtl (io.ctl .mod clientFd) .mod clientFd (epollOut, clientFd)).2
    some ({ buffer := Vector.replicate bufferMaxLen 0, kernel := k },
      [.read clientFd bytes, .print text, .write clientFd reply, .print reply])

/-- The `EPOLLOUT` branch. -/
def writeClient (clientFd : ℤ) (io : Io) (s : Server) : Option (Server × List Call) :=
  (toUpper s.buffer).bind fun buffer =>
  (cString buffer).bind fun text =>
  let k := (s.kernel.epollCtl (io.ctl .mod clientFd) .mod clientFd (epollIn, clientFd)).2
  some ({ buffer := buffer, kernel := k },
    [.write clientFd buffer.toList, .print text])

/-- The body of the inner loop.  The first test is on `my_event->data.fd`, the descriptor of
the entry at the head of the array, not of the one that is handled. -/
def handleEntry (listenFd headFd : ℤ) (l : Entry × Io) (s : Server) :
    Option (Server × List Call) :=
  if headFd = listenFd then some (acceptClient listenFd l.2 s)
  else if l.1.events.has epollIn then readClient l.1.fd l.2 s
  else if l.1.events.has epollOut then writeClient l.1.fd l.2 s
  else some (s, [])

/-- `my_event->data.fd`; it is only read when there is an entry. -/
def headFd : List (Entry × Io) → ℤ
  | [] => 0
  | l :: _ => l.1.fd

/-- The inner loop over what `epoll_wait` returned. -/
def handleBatch (listenFd : ℤ) (es : List (Entry × Io)) : Server → Option (Server × List Call) :=
  exec (handleEntry listenFd (headFd es)) es

/-- The server at the head of its main loop: only the listening socket is registered. -/
def Server.start (listenFd : ℤ) : Server where
  buffer := Vector.replicate bufferMaxLen 0
  kernel := ((Kernel.empty.opened listenFd).epollCtl true .add listenFd (epollIn, listenFd)).2

/-- The entry of a client that has sent these bytes. -/
def Entry.sends (fd : ℤ) (bytes : List UInt8) (hpos : 0 < bytes.length)
    (hle : bytes.length ≤ readLen) : Entry × Io :=
  (⟨epollIn, fd⟩, ⟨none, .data bytes hpos hle, fun _ _ => true⟩)

/-- The listening socket is ready, and `accept` returns a descriptor. -/
def Entry.connects (listenFd fd : ℤ) : Entry × Io :=
  (⟨epollIn, listenFd⟩, ⟨some fd, .eof, fun _ _ => true⟩)

/-- The client can be written to. -/
def Entry.writable (fd : ℤ) : Entry × Io := (⟨epollOut, fd⟩, ⟨none, .eof, fun _ _ => true⟩)

/-- The server with one client, on descriptor 5. -/
def Server.serving : Server :=
  (acceptClient 4 (Entry.connects 4 5).2 (Server.start 4)).1

/-! ## What `to_upper` does -/

section ToUpper

variable {n : ℕ} {str : Vector UInt8 n} {t r : List UInt8}

/-- One round of the loop, on a string of `len` bytes. -/
lemma toUpperFrom_of_lt {len i : ℕ} (hlen : strlen str.toList = some len) (h : i < len)
    (hn : i < n) :
    toUpperFrom str i = toUpperFrom (str.set i (toupper str[i])) (i + 1) := by
  rw [toUpperFrom]
  split
  · rename_i hnone
    cases hlen.symm.trans hnone
  · rename_i len' hsome
    obtain rfl := Option.some.inj (hlen.symm.trans hsome)
    exact dif_pos h

lemma toUpperFrom_of_le {len i : ℕ} (hlen : strlen str.toList = some len) (h : len ≤ i) :
    toUpperFrom str i = some str := by
  rw [toUpperFrom]
  split
  · rename_i hnone
    cases hlen.symm.trans hnone
  · rename_i len' hsome
    obtain rfl := Option.some.inj (hlen.symm.trans hsome)
    exact dif_neg (not_lt.2 h)

/-- The loop, on text that is in upper case up to `i`.  Upper-casing makes no terminator, so
the length that is found in each round is the same. -/
lemma toUpperFrom_spec {u v : List UInt8} (h : str.toList = u ++ v ++ 0 :: r)
    (hu : (0 : UInt8) ∉ u) (hv : (0 : UInt8) ∉ v) :
    ∃ str', toUpperFrom str u.length = some str' ∧
      str'.toList = u ++ v.map toupper ++ 0 :: r := by
  induction v generalizing str u with
  | nil =>
    have hlen : strlen str.toList = some u.length := by
      rw [h, List.append_nil, strlen_append_zero, cText_of_notMem hu]
    exact ⟨str, toUpperFrom_of_le hlen le_rfl, by simpa using h⟩
  | cons c v ih =>
    rw [List.mem_cons, not_or] at hv
    have huv : (0 : UInt8) ∉ u ++ c :: v := by
      simp only [List.mem_append, List.mem_cons, not_or]
      exact ⟨hu, hv⟩
    have hlen : strlen str.toList = some (u.length + (v.length + 1)) := by
      rw [h, strlen_append_zero, cText_of_notMem huv]
      simp
    have hn : u.length < n := by
      have := strlen_lt_length hlen
      rw [Vector.length_toList] at this
      omega
    have hget : str[u.length] = c := by
      rw [← Vector.getElem_toList (by rw [Vector.length_toList]; exact hn)]
      simp [h]
    have hset : (str.set u.length (toupper c)).toList = (u ++ [toupper c]) ++ v ++ 0 :: r := by
      rw [Vector.toList_set, h]
      simp
    obtain ⟨str', hstr', hlist⟩ := ih (u := u ++ [toupper c]) hset (by
      simp only [List.mem_append, List.mem_singleton, not_or]
      exact ⟨hu, fun h0 => hv.1 (toupper_eq_zero.1 h0.symm).symm⟩) hv.2
    refine ⟨str', ?_, by simpa using hlist⟩
    rw [toUpperFrom_of_lt hlen (by omega) hn, hget]
    simpa using hstr'

/-- `to_upper` puts the text before the terminator into upper case and keeps the rest. -/
theorem toUpper_spec (h : str.toList = t ++ 0 :: r) (ht : (0 : UInt8) ∉ t) :
    ∃ str', toUpper str = some str' ∧ str'.toList = t.map toupper ++ 0 :: r := by
  have hempty : str.toList = [] ++ t ++ 0 :: r := h
  exact toUpperFrom_spec hempty (by simp) ht

end ToUpper

end LibeventLearn.EpollDemo
