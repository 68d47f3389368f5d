import LibeventLearn.Lib.CMemory
import LibeventLearn.Lib.Run

/-!
# The callbacks that drain and count

`read_callback` and `event_callback` of `eventBaseDemo/buffereventwatermark.cc`: the first empties
the input and adds its length to a count, the second reports the count at the end of the stream or
on an error and frees everything.  The library that calls them is not part of the repository.  What
they use of it is a parameter with its laws (`InputLib`), and when it calls which of them is left
open: bytes may come in and either callback may be run at any time, until the buffer event has been
freed.
-/

namespace LibeventLearn.EventBaseDemo

open Lib

/-- What the callbacks use of the library: the input of a buffer event as a `struct evbuffer`. -/
structure InputLib where
  Evbuffer : Type
  /-- The bytes in the buffer. -/
  bytes : Evbuffer → List UInt8
  /-- `evbuffer_get_length`. -/
  getLength : Evbuffer → UInt64
  /-- `evbuffer_drain`. -/
  drain : Evbuffer → UInt64 → Evbuffer
  getLength_eq : ∀ input, (getLength input).toNat = (bytes input).length
  bytes_drain : ∀ input n, bytes (drain input n) = (bytes input).drop n.toNat

/-- The buffer as the list of its bytes, which a `size_t` can count. -/
def InputLib.list : InputLib where
  Evbuffer := {l : List UInt8 // l.length < 2 ^ 64}
  bytes := Subtype.val
  getLength input := UInt64.ofNat input.1.length
  drain input n := ⟨input.1.drop n.toNat, by
    rw [List.length_drop]
    exact (Nat.sub_le _ _).trans_lt input.2⟩
  getLength_eq input := UInt64.toNat_ofNat_of_lt' input.2
  bytes_drain _ _ := rfl

/-- `struct info`. -/
structure Info where
  name : CText
  totalDrained : UInt64

/-- What is done with a buffer event. -/
inductive DrainAct where
  /-- Bytes come in. -/
  | arrived (bytes : List UInt8)
  /-- "Drained %lu bytes from %s". -/
  | drained (length : UInt64) (name : CText)
  /-- `event_callback` is run. -/
  | told (events : BitVec 16)
  /-- "Got a close from %s. We drained %lu bytes from it, and had %lu bytes left". -/
  | closed (name : CText) (totalDrained length : UInt64)
  /-- "Got an error from %s:%s". -/
  | error (name text : CText)
  /-- `free(ctx)`. -/
  | free
  /-- `bufferevent_free`. -/
  | buffereventFree

/-! ## The callbacks -/

/-- `read_callback`. -/
def readCallback (lib : InputLib) (input : lib.Evbuffer) (inf : Info) :
    (lib.Evbuffer × Info) × List DrainAct :=
  let length := lib.getLength input
  if length ≠ 0 then
    ((lib.drain input length, { inf with totalDrained := inf.totalDrained + length }),
      [.drained length inf.name])
  else ((input, inf), [])

/-- `BEV_EVENT_EOF`. -/
def bevEventEof : BitVec 16 := 0x10
/-- `BEV_EVENT_ERROR`. -/
def bevEventError : BitVec 16 := 0x20

/-- What `event_callback` prints; `text` is that of the error of the socket. -/
def eventReports (events : BitVec 16) (inf : Info) (length : UInt64) (text : CText) :
    List DrainAct :=
  (if events &&& bevEventEof ≠ 0 then [.closed inf.name inf.totalDrained length] else []) ++
    if events &&& bevEventError ≠ 0 then [.error inf.name text] else []

/-- The events that make `finished` 1. -/
def Ends (events : BitVec 16) : Prop :=
  events &&& bevEventEof ≠ 0 ∨ events &&& bevEventError ≠ 0

instance (events : BitVec 16) : Decidable (Ends events) := inferInstanceAs (Decidable (_ ∨ _))

/-- `event_callback`: the context afterwards, and what is done. -/
def eventCallback (lib : InputLib) (input : lib.Evbuffer) (events : BitVec 16) (inf : Info)
    (text : CText) : Option Info × List DrainAct :=
  let reports := eventReports events inf (lib.getLength input) text
  if Ends events then (none, reports ++ [.free, .buffereventFree]) else (some inf, reports)

/-! ## A buffer event with these callbacks -/

/-- The input of a buffer event and the context of its callbacks, which is gone when it has been
freed. -/
structure Watched (lib : InputLib) where
  input : lib.Evbuffer
  ctx : Option Info

/-- What the library does with a buffer event. -/
inductive WatchStep (lib : InputLib) where
  /-- It puts bytes into the input. -/
  | arrives (bytes : List UInt8) (input : lib.Evbuffer)
  /-- It calls `read_callback`. -/
  | reads
  /-- It calls `event_callback`. -/
  | event (events : BitVec 16) (text : CText)

/-- One step: undefined when the context has been freed. -/
def watchStep (lib : InputLib) : WatchStep lib → Watched lib →
    Option (Watched lib × List DrainAct)
  | .arrives bytes input, w => w.ctx.map fun inf => (⟨input, some inf⟩, [.arrived bytes])
  | .reads, w => w.ctx.map fun inf =>
      let r := readCallback lib w.input inf
      (⟨r.1.1, some r.1.2⟩, r.2)
  | .event events text, w => w.ctx.map fun inf =>
      let r := eventCallback lib w.input events inf text
      ({ w with ctx := r.1 }, .told events :: r.2)

/-- The bytes are put behind those that are there, and a buffer event that has been freed is not
used any more. -/
def WatchLegal (lib : InputLib) (w : Watched lib) (l : WatchStep lib) : Prop :=
  w.ctx ≠ none ∧
    match l with
    | .arrives bytes input => lib.bytes input = lib.bytes w.input ++ bytes
    | _ => True

/-- The input before the first callback, and a context with the count 0. -/
def Watched.start (lib : InputLib) (input : lib.Evbuffer) (name : CText) : Watched lib where
  input := input
  ctx := some ⟨name, 0⟩

/-- All that has come in. -/
def arrivedBytes (h : List DrainAct) : List UInt8 :=
  h.flatMap fun a => match a with
    | .arrived bytes => bytes
    | _ => []

/-- The count and what is left are the `n` bytes that were there and all that has come in, up to
2^64. -/
def Accounts (n : ℕ) (h : List DrainAct) (total : UInt64) (left : ℕ) : Prop :=
  (total.toNat + left) % 2 ^ 64 = (n + (arrivedBytes h).length) % 2 ^ 64

/-- Nothing is freed, no event has told of an end, and none is reported. -/
def DrainAct.Harmless : DrainAct → Prop
  | .arrived _ => True
  | .drained _ _ => True
  | .told events => ¬ Ends events
  | _ => False

/-- What holds of a buffer event and all that has been done with it.  It is freed by the first
event that tells of an end, after that has been reported, and nothing follows. -/
structure Accounted {lib : InputLib} (n : ℕ) (x : Watched lib × List DrainAct) : Prop where
  alive : ∀ inf, x.1.ctx = some inf →
    Accounts n x.2 inf.totalDrained (lib.bytes x.1.input).length ∧ ∀ a ∈ x.2, a.Harmless
  freed : x.1.ctx = none → ∃ h events inf length text,
    x.2 = h ++ .told events :: (eventReports events inf length text ++ [.free, .buffereventFree]) ∧
      Ends events ∧ Accounts n h inf.totalDrained length.toNat ∧ ∀ a ∈ h, a.Harmless

variable {lib : InputLib} {w : Watched lib} {n : ℕ} {h acts : List DrainAct}
  {input : lib.Evbuffer} {inf : Info} {events : BitVec 16} {text : CText}

/-! ## What the callbacks do -/

/-- `read_callback` leaves nothing, and adds what was there to the count. -/
lemma readCallback_spec (lib : InputLib) (input : lib.Evbuffer) (inf : Info) :
    ∃ input' total acts, readCallback lib input inf =
        ((input', { inf with totalDrained := total }), acts) ∧
      lib.bytes input' = [] ∧ total = inf.totalDrained + lib.getLength input ∧
      arrivedBytes acts = [] ∧ ∀ a ∈ acts, a.Harmless := by
  have hlen := lib.getLength_eq input
  by_cases hzero : lib.getLength input = 0
  · refine ⟨input, inf.totalDrained, [], ?_, ?_, ?_, rfl, fun a ha => absurd ha List.not_mem_nil⟩
    · rw [readCallback, if_neg (not_not.2 hzero)]
    · rw [hzero] at hlen
      exact List.eq_nil_of_length_eq_zero hlen.symm
    · rw [hzero, UInt64.add_zero]
  · refine ⟨lib.drain input (lib.getLength input), _, _, if_pos hzero, ?_, rfl, rfl, ?_⟩
    · rw [lib.bytes_drain, hlen, List.drop_length]
    · exact List.forall_mem_singleton.2 trivial

/-- An event that tells of no end does nothing. -/
lemma eventCallback_of_not (hno : ¬ Ends events) :
    eventCallback lib input events inf text = (some inf, []) := by
  obtain ⟨heof, herror⟩ := not_or.1 hno
  rw [eventCallback, if_neg hno, eventReports, if_neg heof, if_neg herror]
  rfl

lemma arrivedBytes_append (h h' : List DrainAct) :
    arrivedBytes (h ++ h') = arrivedBytes h ++ arrivedBytes h' := List.flatMap_append

/-! ## A life -/

section Accounts

variable {total length : UInt64} {left : ℕ}

/-- More comes in. -/
lemma Accounts.arrived (ha : Accounts n h total left) :
    Accounts n (h ++ acts) total (left + (arrivedBytes acts).length) := by
  unfold Accounts at ha ⊢
  rw [arrivedBytes_append, List.length_append]
  omega

/-- Everything is drained. -/
lemma Accounts.drained (ha : Accounts n h total left) (hlen : length.toNat = left)
    (hacts : arrivedBytes acts = []) : Accounts n (h ++ acts) (total + length) 0 := by
  unfold Accounts at ha ⊢
  rw [arrivedBytes_append, hacts, List.append_nil, UInt64.toNat_add, hlen]
  omega

end Accounts

lemma harmless_append (hh : ∀ a ∈ h, a.Harmless) (hacts : ∀ a ∈ acts, a.Harmless) :
    ∀ a ∈ h ++ acts, a.Harmless :=
  fun a ha => (List.mem_append.1 ha).elim (hh a) (hacts a)

namespace Accounted

/-- Something harmless is done. -/
lemma keep {w' : Watched lib} {inf' : Info} (hinf' : w'.ctx = some inf')
    (hacc : Accounts n (h ++ acts) inf'.totalDrained (lib.bytes w'.input).length)
    (hh : ∀ a ∈ h, a.Harmless) (hacts : ∀ a ∈ acts, a.Harmless) :
    Accounted n (w', h ++ acts) where
  alive inf hinf := by
    obtain rfl := Option.some.inj (hinf'.symm.trans hinf)
    exact ⟨hacc, harmless_append hh hacts⟩
  freed hnone := by
    cases hinf'.symm.trans hnone

/-- Bytes come in. -/
lemma arrives {bytes : List UInt8} (ha : Accounted n (w, h)) (hinf : w.ctx = some inf)
    (hbytes : lib.bytes input = lib.bytes w.input ++ bytes) :
    Accounted n (⟨input, some inf⟩, h ++ [.arrived bytes]) := by
  obtain ⟨hacc, hh⟩ := ha.alive inf hinf
  refine keep rfl ?_ hh (List.forall_mem_singleton.2 trivial)
  have harrived : (arrivedBytes [.arrived bytes]).length = bytes.length :=
    congrArg List.length (List.append_nil bytes)
  show Accounts _ _ _ (lib.bytes input).length
  rw [hbytes, List.length_append, ← harrived]
  exact hacc.arrived

/-- The input is drained. -/
lemma reads (ha : Accounted n (w, h)) (hinf : w.ctx = some inf) :
    Accounted n (⟨(readCallback lib w.input inf).1.1, some (readCallback lib w.input inf).1.2⟩,
      h ++ (readCallback lib w.input inf).2) := by
  obtain ⟨hacc, hh⟩ := ha.alive inf hinf
  obtain ⟨input', total, acts, hr, hnil, rfl, harrived, hacts⟩ :=
    readCallback_spec lib w.input inf
  rw [hr]
  refine keep rfl ?_ hh hacts
  show Accounts _ _ _ (lib.bytes input').length
  rw [hnil]
  exact hacc.drained (lib.getLength_eq w.input) harrived

/-- The stream ends, or not. -/
lemma event (ha : Accounted n (w, h)) (hinf : w.ctx = some inf) (events : BitVec 16)
    (text : CText) :
    Accounted n ({ w with ctx := (eventCallback lib w.input events inf text).1 },
      h ++ .told events :: (eventCallback lib w.input events inf text).2) := by
  obtain ⟨hacc, hh⟩ := ha.alive inf hinf
  by_cases hends : Ends events
  · rw [eventCallback, if_pos hends]
    refine ⟨fun inf' hinf' => ?_, fun _ => ?_⟩
    · cases hinf'
    · refine ⟨h, events, inf, lib.getLength w.input, text, rfl, hends, ?_, hh⟩
      rw [lib.getLength_eq]
      exact hacc
  · rw [eventCallback_of_not hends]
    refine keep rfl ?_ hh (List.forall_mem_singleton.2 hends)
    exact hacc.arrived

/-- **One step** is defined, and everything stays accounted for. -/
lemma step (ha : Accounted n (w, h)) {l : WatchStep lib} (hl : WatchLegal lib w l) :
    ∃ r, watchStep lib l w = some r ∧ Accounted n (r.1, h ++ r.2) := by
  obtain ⟨hctx, hl⟩ := hl
  obtain ⟨inf, hinf⟩ := Option.ne_none_iff_exists'.1 hctx
  cases l with
  | arrives bytes input =>
    rw [watchStep, hinf]
    exact ⟨_, rfl, ha.arrives hinf hl⟩
  | reads =>
    rw [watchStep, hinf]
    exact ⟨_, rfl, ha.reads hinf⟩
  | event events text =>
    rw [watchStep, hinf]
    exact ⟨_, rfl, ha.event hinf events text⟩

end Accounted

end LibeventLearn.EventBaseDemo
