import LibeventLearn.EpollDemo.Server

/-!
# The buffer between two entries

All clients share one buffer, which each entry finds blank and leaves blank.  Nobody wrote that
down, but everything else rests on it: with a blank buffer the calls made for an entry are a
function of that entry alone (`answer`), so no byte of one client gets into a reply to another.
-/

namespace LibeventLearn.EpollDemo

open Lib Epoll

variable {listenFd head c : ℤ} {l l' : Entry × Io} {s : Server}

/-- All bytes of the buffer are zero. -/
def Server.Blank (s : Server) : Prop := s.buffer = Vector.replicate bufferMaxLen 0

/-- The calls the server makes for an entry that finds a blank buffer. -/
def answer (listenFd head : ℤ) (l : Entry × Io) : List Call :=
  if head = listenFd then [.accept listenFd l.2.accept]
  else if l.1.events.has epollIn then
    match l.2.read with
    | .error => [.read l.1.fd []]
    | .eof => [.read l.1.fd [], .close l.1.fd]
    | .data bytes _ _ =>
      let reply := (cText bytes).map toupper
      [.read l.1.fd bytes, .print (cText bytes), .write l.1.fd reply, .print reply]
  else if l.1.events.has epollOut then
    [.write l.1.fd (List.replicate bufferMaxLen 0), .print []]
  else []

/-- The kernel after the entry. -/
def kernelAfter (listenFd head : ℤ) (l : Entry × Io) (k : Kernel ℤ) : Kernel ℤ :=
  if head = listenFd then
    match l.2.accept with
    | none => k
    | some fd =>
      ((k.opened fd).epollCtl (l.2.ctl .add fd) .add fd (epollIn ||| epollEt, fd)).2
  else if l.1.events.has epollIn then
    match l.2.read with
    | .error => k
    | .eof => (k.epollCtl (l.2.ctl .del l.1.fd) .del l.1.fd (0, l.1.fd)).2.close l.1.fd
    | .data _ _ _ => (k.epollCtl (l.2.ctl .mod l.1.fd) .mod l.1.fd (epollOut, l.1.fd)).2
  else if l.1.events.has epollOut then
    (k.epollCtl (l.2.ctl .mod l.1.fd) .mod l.1.fd (epollIn, l.1.fd)).2
  else k

/-! ## One entry -/

lemma set_replicate_zero {i : ℕ} (h : i < bufferMaxLen) :
    (Vector.replicate bufferMaxLen (0 : UInt8)).set i 0 = Vector.replicate bufferMaxLen 0 := by
  apply Vector.toList_inj.1
  rw [Vector.toList_set, Vector.toList_replicate, List.set_replicate_self]

/-- The buffer after a `read`: what was read, and zeros. -/
lemma readInto_blank (hs : s.Blank) {bytes : List UInt8} (hle : bytes.length ≤ readLen) :
    (readInto bytes hle s.buffer).toList =
      bytes ++ List.replicate (bufferMaxLen - bytes.length) 0 := by
  rw [readInto, hs, set_replicate_zero, toList_blit_replicate]

/-- It has a terminator. -/
lemma exists_readInto_blank (hs : s.Blank) {bytes : List UInt8} (hle : bytes.length ≤ readLen) :
    ∃ r, (readInto bytes hle s.buffer).toList = cText bytes ++ 0 :: r := by
  rw [readInto_blank hs]
  refine exists_append_replicate bytes (Nat.sub_pos_of_lt ?_)
  exact lt_of_le_of_lt hle (by decide)

/-- The `EPOLLIN` branch, on a blank buffer and with data. -/
lemma readClient_data {fd : ℤ} {io : Io} (hs : s.Blank) {bytes : List UInt8}
    {hpos : 0 < bytes.length} {hle : bytes.length ≤ readLen}
    (hread : io.read = .data bytes hpos hle) :
    readClient fd io s = some
      ({ s with kernel := (s.kernel.epollCtl (io.ctl .mod fd) .mod fd (epollOut, fd)).2 },
        [.read fd bytes, .print (cText bytes), .write fd ((cText bytes).map toupper),
          .print ((cText bytes).map toupper)]) := by
  obtain ⟨r, hr⟩ := exists_readInto_blank hs hle
  have hlt : bytes.length < bufferMaxLen := lt_of_le_of_lt hle (by decide)
  -- the terminator is stored over a zero
  have hterm : (readInto bytes hle s.buffer).set bytes.length 0 = readInto bytes hle s.buffer := by
    apply Vector.toList_inj.1
    rw [Vector.toList_set, readInto_blank hs, List.set_append_right _ _ le_rfl, Nat.sub_self,
      List.set_replicate_self]
  have hnz : (0 : UInt8) ∉ cText bytes := zero_notMem_cText bytes
  obtain ⟨str, hstr, hlist⟩ := toUpper_spec hr hnz
  have hreply := cString_of_toList hlist (zero_notMem_map_toupper hnz)
  simp only [readClient, hread, cString_of_toList hr hnz, Option.bind_some, hterm, hstr, hreply]
  rw [← hs]

/-- The `EPOLLOUT` branch, on a blank buffer. -/
lemma writeClient_blank {fd : ℤ} {io : Io} (hs : s.Blank) :
    writeClient fd io s = some
      ({ s with kernel := (s.kernel.epollCtl (io.ctl .mod fd) .mod fd (epollIn, fd)).2 },
        [.write fd (List.replicate bufferMaxLen 0), .print []]) := by
  have hlist : s.buffer.toList = [] ++ 0 :: List.replicate (bufferMaxLen - 1) 0 := by
    rw [hs, Vector.toList_replicate]
    rfl
  obtain ⟨str, hstr, hup⟩ := toUpper_spec hlist (by simp)
  obtain rfl : str = s.buffer := Vector.toList_inj.1 (hup.trans hlist.symm)
  simp only [writeClient, hstr, cString_of_toList hlist (by simp), Option.bind_some]
  rw [hs, Vector.toList_replicate]

/-- **One entry.**  On a blank buffer nothing is undefined, the calls depend on the entry alone,
and the buffer is blank again. -/
theorem handleEntry_blank (hs : s.Blank) :
    handleEntry listenFd head l s =
      some ({ s with kernel := kernelAfter listenFd head l s.kernel },
        answer listenFd head l) := by
  have hset : s.buffer.set 0 0 = s.buffer := by rw [hs, set_replicate_zero]
  unfold handleEntry kernelAfter answer
  split
  · simp only [acceptClient]
    cases l.2.accept with
    | none => rfl
    | some fd => rfl
  split
  · cases hread : l.2.read with
    | data bytes hpos hle => exact readClient_data hs hread
    | eof => simp only [readClient, hread, hset]
    | error => simp only [readClient, hread, hset]
  split
  · exact writeClient_blank hs
  · rfl

section Shapes

variable {fd : ℤ} {bytes : List UInt8} {hpos : 0 < bytes.length} {hle : bytes.length ≤ readLen}
  {k : Kernel ℤ}

lemma kernelAfter_sends (h : head ≠ listenFd) :
    kernelAfter listenFd head (Entry.sends fd bytes hpos hle) k =
      (k.epollCtl true .mod fd (epollOut, fd)).2 := by
  simp [kernelAfter, Entry.sends, h]

lemma kernelAfter_writable (h : head ≠ listenFd) :
    kernelAfter listenFd head (Entry.writable fd) k =
      (k.epollCtl true .mod fd (epollIn, fd)).2 := by
  simp [kernelAfter, Entry.writable, h]

lemma answer_sends (h : head ≠ listenFd) :
    answer listenFd head (Entry.sends fd bytes hpos hle) =
      [.read fd bytes, .print (cText bytes), .write fd ((cText bytes).map toupper),
        .print ((cText bytes).map toupper)] := by
  simp [answer, Entry.sends, h]

lemma answer_writable (h : head ≠ listenFd) :
    answer listenFd head (Entry.writable fd) =
      [.write fd (List.replicate bufferMaxLen 0), .print []] := by
  simp [answer, Entry.writable, h]

end Shapes

/-! ## Runs -/

/-- The entries of a batch make their calls one after the other. -/
lemma exec_handleEntry_blank (listenFd head : ℤ) (es : List (Entry × Io)) (hs : s.Blank) :
    ∃ q, exec (handleEntry listenFd head) es s = some q ∧ q.1.Blank ∧
      q.2 = es.flatMap (answer listenFd head) := by
  induction es generalizing s with
  | nil => exact ⟨(s, []), rfl, hs, rfl⟩
  | cons l es ih =>
    obtain ⟨q, hq, hblank, hcalls⟩ :=
      ih (s := { s with kernel := kernelAfter listenFd head l s.kernel }) hs
    refine ⟨_, exec_cons_eq_some.2 ⟨_, q, handleEntry_blank hs, hq, rfl⟩, hblank, ?_⟩
    rw [List.flatMap_cons, ← hcalls]

/-- The batches of a run make their calls one after the other. -/
lemma exec_handleBatch_blank (listenFd : ℤ) (bs : List (List (Entry × Io))) (hs : s.Blank) :
    ∃ q, exec (handleBatch listenFd) bs s = some q ∧ q.1.Blank ∧
      q.2 = bs.flatMap fun es => es.flatMap (answer listenFd (headFd es)) := by
  induction bs generalizing s with
  | nil => exact ⟨(s, []), rfl, hs, rfl⟩
  | cons es bs ih =>
    obtain ⟨r, hr, hblank, hcalls⟩ := exec_handleEntry_blank listenFd (headFd es) es hs
    obtain ⟨q, hq, hblank', hcalls'⟩ := ih hblank
    refine ⟨_, exec_cons_eq_some.2 ⟨r, q, hr, hq, rfl⟩, hblank', ?_⟩
    rw [List.flatMap_cons, ← hcalls, ← hcalls']

lemma blank_start (listenFd : ℤ) : (Server.start listenFd).Blank := rfl

/-- The buffer is blank before and after the entry, and what the first `%s` of the `EPOLLIN`
branch prints has a terminator. -/
def EntryBlank (s : Server) (l : Entry × Io) (r : Server × List Call) : Prop :=
  s.Blank ∧ r.1.Blank ∧ ∀ bytes hpos hle, l.2.read = .data bytes hpos hle →
    ∃ len, strlen (readInto bytes hle s.buffer).toList = some len

lemma entryBlank_throughout {es : List (Entry × Io)} (hs : s.Blank) :
    Throughout (handleEntry listenFd head) EntryBlank es s := by
  refine Throughout.of_inv Server.Blank (fun s l hs _ => ?_) hs
    (allowed_of_forall (fun _ _ => trivial) es s)
  refine ⟨_, handleEntry_blank hs, ⟨hs, hs, fun bytes hpos hle _ => ?_⟩, hs⟩
  obtain ⟨r, hr⟩ := exists_readInto_blank hs hle
  exact ⟨_, by rw [hr, strlen_append_zero]⟩

/-! ## Two runs -/

/-- The two results are of one kind: data, the end of the stream, or an error. -/
def SameKind : ReadResult readLen → ReadResult readLen → Prop
  | .data _ _ _, .data _ _ _ => True
  | .eof, .eof => True
  | .error, .error => True
  | _, _ => False

/-- The entries differ in the bytes read at most, and not even there for the client `c`. -/
structure SameFor (c : ℤ) (l l' : Entry × Io) : Prop where
  entry : l.1 = l'.1
  accept : l.2.accept = none ↔ l'.2.accept = none
  read : SameKind l.2.read l'.2.read
  bytes : l.1.fd = c → l.2.read = l'.2.read

/-- The payloads of the `write` calls on a descriptor. -/
def writesOn (fd : ℤ) (h : List Call) : List (List UInt8) :=
  h.filterMap fun a => match a with
    | .write fd' bytes => if fd' = fd then some bytes else none
    | _ => none

lemma writesOn_flatMap {A : Type*} (ls : List A) (f : A → List Call) :
    writesOn c (ls.flatMap f) = ls.flatMap fun l => writesOn c (f l) := by
  rw [writesOn, List.filterMap_flatMap]
  rfl

/-- The calls for another client's entry write nothing to `c`, and the calls for an entry of `c`
are the same. -/
lemma SameFor.writesOn_answer (h : SameFor c l l') :
    writesOn c (answer listenFd head l) = writesOn c (answer listenFd head l') := by
  obtain ⟨e, io⟩ := l
  obtain ⟨e', io'⟩ := l'
  obtain rfl : e = e' := h.entry
  unfold answer
  split
  · rfl
  split
  · by_cases hc : e.fd = c
    · rw [show io.read = io'.read from h.bytes hc]
    · have hkind := h.read
      cases hr : io.read <;> cases hr' : io'.read <;> simp [hr, hr', SameKind] at hkind <;>
        simp [writesOn, hc]
  · rfl

lemma SameFor.headFd {es es' : List (Entry × Io)} (h : List.Forall₂ (SameFor c) es es') :
    headFd es = headFd es' := by
  cases h with
  | nil => rfl
  | cons hl _ => exact congrArg Entry.fd hl.entry

lemma flatMap_eq_of_forall₂ {A B : Type*} {R : A → A → Prop} {f g : A → List B} {ls ls' : List A}
    (h : List.Forall₂ R ls ls') (hfg : ∀ l l', R l l' → f l = g l') :
    ls.flatMap f = ls'.flatMap g := by
  induction h with
  | nil => rfl
  | cons hl _ ih => rw [List.flatMap_cons, List.flatMap_cons, hfg _ _ hl, ih]

/-- **Isolation.**  In every run of the server the buffer is blank at the head of the inner
loop, so that what it prints is terminated; and in two runs with the same entries, the same
outcomes and the same bytes from the client `c`, the payloads of the `write` calls on `c` are
the same, whatever the other clients send. -/
theorem buffer_isolated (listenFd : ℤ) :
    (∀ bs : List (List (Entry × Io)), Throughout (handleBatch listenFd)
      (fun s es _ => Throughout (handleEntry listenFd (headFd es)) EntryBlank es s) bs
      (Server.start listenFd)) ∧
    ∀ (c : ℤ) (bs bs' : List (List (Entry × Io))),
      List.Forall₂ (List.Forall₂ (SameFor c)) bs bs' →
      ∃ q q', exec (handleBatch listenFd) bs (Server.start listenFd) = some q ∧
        exec (handleBatch listenFd) bs' (Server.start listenFd) = some q' ∧
        writesOn c q.2 = writesOn c q'.2 := by
  constructor
  · intro bs
    refine Throughout.of_inv Server.Blank (fun s es hs _ => ?_) (blank_start listenFd)
      (allowed_of_forall (fun _ _ => trivial) bs _)
    obtain ⟨q, hq, hblank, -⟩ := exec_handleEntry_blank listenFd (headFd es) es hs
    exact ⟨q, hq, entryBlank_throughout hs, hblank⟩
  · intro c bs bs' h
    obtain ⟨q, hq, -, hcalls⟩ := exec_handleBatch_blank listenFd bs (blank_start listenFd)
    obtain ⟨q', hq', -, hcalls'⟩ := exec_handleBatch_blank listenFd bs' (blank_start listenFd)
    refine ⟨q, q', hq, hq', ?_⟩
    rw [hcalls, hcalls', writesOn_flatMap, writesOn_flatMap]
    refine flatMap_eq_of_forall₂ h fun es es' hes => ?_
    rw [writesOn_flatMap, writesOn_flatMap, SameFor.headFd hes]
    exact flatMap_eq_of_forall₂ hes fun l l' hl => hl.writesOn_answer

theorem buffer_isolated_secret :
    ∃ q q', exec (handleBatch 3) [[Entry.sends 5 [115, 51] (by decide) (by decide)],
          [Entry.sends 6 [104, 105] (by decide) (by decide)]] (Server.start 3) = some q ∧
      exec (handleBatch 3) [[Entry.sends 5 [120] (by decide) (by decide)],
          [Entry.sends 6 [104, 105] (by decide) (by decide)]] (Server.start 3) = some q' ∧
      writesOn 6 q.2 = writesOn 6 q'.2 := by
  refine (buffer_isolated 3).2 6 _ _ (.cons (.cons ⟨rfl, Iff.rfl, trivial, ?_⟩ .nil)
    (.cons (.cons ⟨rfl, Iff.rfl, trivial, fun _ => rfl⟩ .nil) .nil))
  intro h
  cases h

end LibeventLearn.EpollDemo
