import LibeventLearn.Reactor.Slots
import Mathlib.Data.List.Infix

/-!
# Echo fidelity

A connection alternates between `recvdata`, which fills the buffer of its slot, and `senddata`,
which sends the buffer back.  The bytes sent are meant to be the bytes received.  They are,
exactly as long as every `send` that does not fail has a chunk to send that does not fill the
buffer, and takes all of it: a full buffer loses its length to the terminator, and the rest of
a short `send` is never sent.
-/

namespace LibeventLearn.Reactor

open Lib Epoll

variable {io : Io} {p q : Slot} {w w' : World} {bytes : List UInt8}

/-! ## The turns of a connection -/

/-- What happens to the slots between two looks at the clock: the callback of a slot is run, or
the slot is inspected by the idle sweep. -/
inductive Turn where
  | callback (q : Slot)
  | timeout (q : Slot) (now : ℤ)

/-- The slot the turn belongs to. -/
def Turn.slot : Turn → Slot
  | .callback q => q
  | .timeout q _ => q

/-- The turn, with the environment's decisions. -/
def turnStep (l : Turn × Io) (w : World) : Option (World × List Act) :=
  match l.1 with
  | .callback q =>
    let ev := w.slot q
    invoke l.2 ev.callBack ev.fd ev.events ev.arg w
  | .timeout q now => some (sweepSlot l.2 now q w)

/-- The results `send` may have: failure, or a count of the bytes it was given, which is zero
only if there were none. -/
def SendLegal (result len : ℤ) : Prop :=
  result < 0 ∨ (0 < result ∧ result ≤ len) ∨ (result = 0 ∧ len = 0)

/-- Callbacks run on monitored connections, and `send` is answered legally. -/
def TurnLegal (w : World) (l : Turn × Io) : Prop :=
  match l.1 with
  | .callback q =>
    (w.slot q).status = 1 ∧
      ((w.slot q).callBack = .recvdata ∨
        ((w.slot q).callBack = .senddata ∧
          SendLegal (l.2.send (w.slot q).fd) (w.slot q).len))
  | .timeout _ _ => True

/-- The bytes `recv` returned for the slot `p`. -/
def rx (p : Slot) (h : List Act) : List UInt8 :=
  h.flatMap fun a => match a with
    | .recv q _ bytes => if q = p then bytes else []
    | _ => []

/-- The bytes `send` accepted for the slot `p`. -/
def tx (p : Slot) (h : List Act) : List UInt8 :=
  h.flatMap fun a => match a with
    | .send q _ bytes => if q = p then bytes else []
    | _ => []

/-- The slot waits for data. -/
def MyEvent.Receiving (ev : MyEvent) : Prop :=
  ev.status = 1 ∧ ev.callBack = .recvdata ∧ ev.events = epollIn

/-- The slot waits to send. -/
def MyEvent.Sending (ev : MyEvent) : Prop :=
  ev.status = 1 ∧ ev.callBack = .senddata ∧ ev.events = epollOut

/-- The reasons for which a connection may be closed. -/
def CloseCause (w : World) (l : Turn × Io) : Prop :=
  match l.1 with
  | .callback q =>
    let ev := w.slot q
    (ev.callBack = .recvdata ∧ (l.2.recv ev.fd = .eof ∨ l.2.recv ev.fd = .error)) ∨
      (ev.callBack = .senddata ∧ l.2.send ev.fd < 0)
  | .timeout _ _ => True

/-- What is expected of a turn, as seen from the connection in the slot `p`: the second
component of a state is the record of everything that happened. -/
structure Echoed (p : Slot) (s : World × List Act) (l : Turn × Io)
    (r : (World × List Act) × List Act) : Prop where
  tx_rx : tx p r.1.2 <+: rx p r.1.2
  tx_eq_rx : (r.1.1.slot p).Receiving → tx p r.1.2 = rx p r.1.2
  cause : ∀ fd o, .close p fd o ∈ r.2 → CloseCause s.1 l

/-- The bytes of the connection that have been received and not sent. -/
def unsent (p : Slot) (h : List Act) : List UInt8 := (rx p h).drop (tx p h).length

/-- A `senddata` of the slot `p` fails, or has less than a full buffer to send and sends all of
it. -/
def SendsAll (p : Slot) (s : World × List Act) (l : Turn × Io) : Prop :=
  l.1 = .callback p → (s.1.slot p).callBack = .senddata →
    l.2.send (s.1.slot p).fd < 0 ∨
      ((unsent p s.2).length < bufLen ∧
        l.2.send (s.1.slot p).fd = (unsent p s.2).length)

/-! ## The record -/

@[simp] lemma rx_append (h h' : List Act) : rx p (h ++ h') = rx p h ++ rx p h' :=
  List.flatMap_append

@[simp] lemma tx_append (h h' : List Act) : tx p (h ++ h') = tx p h ++ tx p h' :=
  List.flatMap_append

@[simp] lemma rx_recv {fd : ℤ} : rx p [.recv q fd bytes] = if q = p then bytes else [] := by
  simp [rx]

@[simp] lemma tx_recv {fd : ℤ} : tx p [.recv q fd bytes] = [] := rfl

@[simp] lemma rx_send {fd : ℤ} : rx p [.send q fd bytes] = [] := rfl

@[simp] lemma tx_send {fd : ℤ} : tx p [.send q fd bytes] = if q = p then bytes else [] := by
  simp [tx]

@[simp] lemma rx_close {fd : ℤ} {o : Bool} : rx p [.close q fd o] = [] := rfl

@[simp] lemma tx_close {fd : ℤ} {o : Bool} : tx p [.close q fd o] = [] := rfl

/-! ## What a turn does -/

/-- The ways a legal turn of the slot `p` can go. -/
inductive TurnCase (p : Slot) (io : Io) (w : World) (l : Turn) (r : World × List Act) : Prop
  | called (hcall : l = .callback p) (hcase : CallbackCase p io w r)
  | expired (now : ℤ) (hcall : l = .timeout p now) (hslot : Dropped p w r.1)
      (hact : r.2 = [.close p (w.slot p).fd (w.kernel.isOpen (w.slot p).fd)])
  | passed (now : ℤ) (hcall : l = .timeout p now) (hr : r = (w, []))

/-- Inversion of a legal turn. -/
lemma turn_cases {l : Turn} (hlegal : TurnLegal w (l, io)) :
    ∃ r, turnStep (l, io) w = some r ∧ TurnCase l.slot io w l r := by
  cases l with
  | callback p =>
    obtain ⟨r, hr, hcase⟩ := invoke_cases io (w.slot p).events (hlegal.2.imp_right And.left)
    exact ⟨r, hr, .called rfl hcase⟩
  | timeout p now =>
    refine ⟨_, rfl, ?_⟩
    by_cases hidle : Idle now (w.slot p)
    · obtain ⟨hslot, hact⟩ := sweepSlot_idle io hidle
      exact .expired now rfl hslot hact
    · exact .passed now rfl (sweepSlot_not_idle hidle)

/-- A callback of another slot is not noticed. -/
lemma CallbackCase.other {r : World × List Act} (h : CallbackCase q io w r) (hpq : p ≠ q) :
    r.1.slot p = w.slot p ∧ rx p r.2 = [] ∧ tx p r.2 = [] ∧ ∀ fd o, .close p fd o ∉ r.2 := by
  rcases h with ⟨_, _, _, _, _, hslot, hact⟩ | ⟨_, _, hslot, hact⟩ | ⟨_, hslot, hact⟩
  · rw [hact]
    exact ⟨hslot.slot_of_ne p hpq, by simp [hpq.symm], rfl, by simp⟩
  · rw [hact]
    exact ⟨hslot.slot_of_ne p hpq, rfl, by simp [hpq.symm], by simp⟩
  · rw [hact]
    exact ⟨hslot.slot_of_ne p hpq, rfl, rfl, by simp [hpq]⟩

/-- A turn of another slot is not noticed. -/
lemma TurnCase.other {l : Turn} {r : World × List Act} (h : TurnCase q io w l r) (hpq : p ≠ q) :
    r.1.slot p = w.slot p ∧ rx p r.2 = [] ∧ tx p r.2 = [] ∧ ∀ fd o, .close p fd o ∉ r.2 := by
  rcases h with ⟨_, hcase⟩ | ⟨_, _, hslot, hact⟩ | ⟨_, _, rfl⟩
  · exact hcase.other hpq
  · rw [hact]
    exact ⟨hslot.slot_of_ne p hpq, rfl, rfl, by simp [hpq]⟩
  · exact ⟨rfl, rfl, rfl, by simp⟩

/-! ## The buffer -/

lemma received_of_lt {ev : MyEvent} {hle : bytes.length ≤ bufLen}
    (hlt : bytes.length < bufLen) :
    (received bytes hle ev).len = bytes.length ∧ (received bytes hle ev).outgoing = bytes := by
  simp only [received, MyEvent.terminate, dif_pos hlt, MyEvent.fill, MyEvent.outgoing,
    Vector.toList_set, toList_blit, Int.toNat_natCast]
  refine ⟨trivial, ?_⟩
  simp

/-- A full buffer: the terminator is stored into the lowest byte of the length. -/
lemma received_of_eq {ev : MyEvent} {hle : bytes.length ≤ bufLen}
    (heq : bytes.length = bufLen) : (received bytes hle ev).len = 0 := by
  rw [received, MyEvent.terminate, dif_neg (by omega)]
  simp [heq]

/-! ## The invariant -/

/-- What the slot of a connection holds, given what was received and sent. -/
inductive Talk (ev : MyEvent) (received sent : List UInt8) : Prop
  | receiving (hev : ev.Receiving) (heq : sent = received)
  | sending (chunk : List UInt8) (hev : ev.Sending) (heq : received = sent ++ chunk)
      (hpos : 0 < chunk.length) (hle : chunk.length ≤ bufLen)
      (hlt : chunk.length < bufLen → ev.len = chunk.length ∧ ev.outgoing = chunk)
      (hfull : chunk.length = bufLen → ev.len = 0)
  | gone (hev : ev.status ≠ 1) (hle : sent <+: received)

/-- The invariant of the runs that send everything. -/
def TalkInv (p : Slot) (s : World × List Act) : Prop := Talk (s.1.slot p) (rx p s.2) (tx p s.2)

lemma TalkInv.tx_rx {s : World × List Act} (h : TalkInv p s) : tx p s.2 <+: rx p s.2 := by
  rcases h with ⟨_, heq⟩ | ⟨chunk, _, heq, _⟩ | ⟨_, hle⟩
  · rw [heq]
  · rw [heq]
    exact List.prefix_append _ _
  · exact hle

lemma TalkInv.tx_eq_rx {s : World × List Act} (h : TalkInv p s)
    (hr : (s.1.slot p).Receiving) : tx p s.2 = rx p s.2 := by
  rcases h with ⟨_, heq⟩ | ⟨_, hev, _⟩ | ⟨hev, _⟩
  · exact heq
  · cases (hr.2.1.symm.trans hev.2.1)
  · exact absurd hr.1 hev

/-- The slot after the connection is closed. -/
lemma TalkInv.dropped {h : List Act} {w : World} (hinv : TalkInv p (w, h))
    (hd : Dropped p w w') {fd : ℤ} {o : Bool} : TalkInv p (w', h ++ [.close p fd o]) := by
  refine .gone ?_ ?_
  · show (w'.slot p).status ≠ 1
    rw [hd.slot_self]
    exact statusDel_ne _
  · simpa using hinv.tx_rx

/-- The slot after data has been received on a quiet connection. -/
lemma talk_received {h : List Act} {hle : bytes.length ≤ bufLen} (hpos : 0 < bytes.length)
    (heq : tx p h = rx p h) (hr : Rearmed io p .senddata epollOut (received bytes hle) w w')
    {fd : ℤ} : TalkInv p (w', h ++ [.recv p fd bytes]) := by
  refine .sending bytes ⟨?_, ?_, ?_⟩ (by simp [heq]) hpos hle (fun hlt => ?_) (fun hfull => ?_)
  · rw [hr.slot_self]
    rfl
  · rw [hr.slot_self]
    rfl
  · rw [hr.slot_self]
    rfl
  · rw [hr.slot_self]
    exact received_of_lt hlt
  · rw [hr.slot_self]
    exact received_of_eq hfull

lemma talk_sent {h : List Act} {chunk : List UInt8} (heq : rx p h = tx p h ++ chunk)
    (hr : Rearmed io p .recvdata epollIn id w w') {fd : ℤ} :
    TalkInv p (w', h ++ [.send p fd chunk]) := by
  refine .receiving ⟨?_, ?_, ?_⟩ (by simp [heq])
  · rw [hr.slot_self]
    rfl
  · rw [hr.slot_self]
    rfl
  · rw [hr.slot_self]
    rfl

lemma TalkInv.echoed {s : World × List Act} {l : Turn × Io} {r : (World × List Act) × List Act}
    (h : TalkInv p r.1) (hc : ∀ fd o, .close p fd o ∈ r.2 → CloseCause s.1 l) :
    Echoed p s l r := ⟨h.tx_rx, h.tx_eq_rx, hc⟩

/-- A monitored connection that waits for data has sent what it received. -/
lemma TalkInv.of_recvdata {h : List Act} (hinv : TalkInv p (w, h))
    (hs : (w.slot p).status = 1) (hcb : (w.slot p).callBack = .recvdata) :
    tx p h = rx p h := by
  rcases hinv with ⟨_, heq⟩ | ⟨_, hev, _⟩ | ⟨hev, _⟩
  · exact heq
  · cases (hcb.symm.trans hev.2.1)
  · exact absurd hs hev

/-- A monitored connection that waits to send has a chunk in its buffer. -/
lemma TalkInv.of_senddata {h : List Act} (hinv : TalkInv p (w, h))
    (hs : (w.slot p).status = 1) (hcb : (w.slot p).callBack = .senddata) :
    ∃ chunk, unsent p h = chunk ∧ rx p h = tx p h ++ chunk ∧ 0 < chunk.length ∧
      (chunk.length < bufLen ∧ (w.slot p).len = chunk.length ∧ (w.slot p).outgoing = chunk ∨
        chunk.length = bufLen ∧ (w.slot p).len = 0) := by
  rcases hinv with ⟨hev, _⟩ | ⟨chunk, hev, heq, hpos, hle, hlt, hfull⟩ | ⟨hev, _⟩
  · cases (hcb.symm.trans hev.2.1)
  · simp only at heq
    refine ⟨chunk, by simp [unsent, heq], heq, hpos, ?_⟩
    rcases Nat.lt_or_eq_of_le hle with h | h
    · exact Or.inl ⟨h, hlt h⟩
    · exact Or.inr ⟨h, hfull h⟩
  · exact absurd hs hev

/-- A `senddata` that sends something. -/
lemma echo_sent {h : List Act} (hinv : TalkInv p (w, h))
    (hlegal : TurnLegal w (.callback p, io)) (hcb : (w.slot p).callBack = .senddata)
    (hpos : 0 < io.send (w.slot p).fd) (hr : Rearmed io p .recvdata epollIn id w w')
    {acts : List Act} (hact : acts = [.send p (w.slot p).fd
      ((w.slot p).outgoing.take (io.send (w.slot p).fd).toNat)]) :
    (Echoed p (w, h) (.callback p, io) ((w', h ++ acts), acts) →
        SendsAll p (w, h) (.callback p, io)) ∧
      (SendsAll p (w, h) (.callback p, io) → TalkInv p (w', h ++ acts)) := by
  obtain ⟨hs, hrecv | ⟨-, hsend⟩⟩ := hlegal
  · cases (hcb.symm.trans hrecv)
  obtain ⟨chunk, hun, heq, hcpos, ⟨hlt, hlen, hout⟩ | ⟨-, hlen⟩⟩ := hinv.of_senddata hs hcb
  swap
  · -- a full buffer has length 0, so nothing can have been sent
    simp only [SendLegal, hlen] at hsend
    omega
  rw [hout] at hact
  constructor
  · intro hecho _ _
    refine Or.inr ⟨hun ▸ hlt, ?_⟩
    have hall := hecho.tx_eq_rx (by
      show (w'.slot p).Receiving
      rw [hr.slot_self]
      exact ⟨rfl, rfl, rfl⟩)
    rw [hact] at hall
    simp only [tx_append, tx_send, if_true, rx_append, rx_send, List.append_nil, heq,
      List.append_cancel_left_eq] at hall
    have hn : chunk.length ≤ (io.send (w.slot p).fd).toNat := by
      rw [← List.take_eq_self_iff]
      exact hall
    have hle : io.send (w.slot p).fd ≤ chunk.length := by
      simp only [SendLegal, hlen] at hsend
      omega
    show io.send (w.slot p).fd = ((unsent p h).length : ℤ)
    rw [hun]
    omega
  · intro hsends
    rcases hsends rfl hcb with hneg | ⟨-, hn⟩
    · exact absurd hpos (not_lt.2 hneg.le)
    · change io.send (w.slot p).fd = ((unsent p h).length : ℤ) at hn
      rw [hn, hun, Int.toNat_natCast, List.take_length] at hact
      rw [hact]
      exact talk_sent heq hr

/-- A callback that closes the connection. -/
lemma echo_closed (w' : World) {h : List Act} (hinv : TalkInv p (w, h))
    (hlegal : TurnLegal w (.callback p, io)) {fd : ℤ} {o : Bool} {acts : List Act}
    (hact : acts = [.close p fd o])
    (hcause : ((w.slot p).callBack = .recvdata ∧
          (io.recv (w.slot p).fd = .eof ∨ io.recv (w.slot p).fd = .error)) ∨
        ((w.slot p).callBack = .senddata ∧ io.send (w.slot p).fd ≤ 0)) :
    (Echoed p (w, h) (.callback p, io) ((w', h ++ acts), acts) →
        SendsAll p (w, h) (.callback p, io)) ∧
      (SendsAll p (w, h) (.callback p, io) → CloseCause w (.callback p, io)) := by
  constructor
  · intro hecho _ hcb
    rcases hecho.cause fd o (by simp [hact]) with ⟨hrecv, -⟩ | ⟨-, hneg⟩
    · cases (hcb.symm.trans hrecv)
    · exact Or.inl hneg
  · intro hsends
    refine hcause.imp_right fun ⟨hcb, hle⟩ => ⟨hcb, lt_of_le_of_ne hle fun hzero => ?_⟩
    -- a chunk is waiting, so sending it all is not sending nothing
    obtain ⟨chunk, hun, -, hcpos, -⟩ := hinv.of_senddata hlegal.1 hcb
    rcases hsends rfl hcb with hneg | ⟨-, hn⟩
    · exact absurd hzero hneg.ne
    · change io.send (w.slot p).fd = ((unsent p h).length : ℤ) at hn
      rw [hun] at hn
      omega

/-- A callback of the connection. -/
lemma echo_called {h : List Act} {r : World × List Act} (hinv : TalkInv p (w, h))
    (hlegal : TurnLegal w (.callback p, io)) (hcase : CallbackCase p io w r) :
    (Echoed p (w, h) (.callback p, io) ((r.1, h ++ r.2), r.2) →
        SendsAll p (w, h) (.callback p, io)) ∧
      (SendsAll p (w, h) (.callback p, io) →
        Echoed p (w, h) (.callback p, io) ((r.1, h ++ r.2), r.2) ∧
          TalkInv p (r.1, h ++ r.2)) := by
  rcases hcase with ⟨bytes, hpos, hle, hcb, -, hslot, hact⟩ | ⟨hcb, hpos, hslot, hact⟩ |
    ⟨hcause, hslot, hact⟩
  · have hinv' : TalkInv p (r.1, h ++ r.2) := by
      rw [hact]
      exact talk_received hpos (hinv.of_recvdata hlegal.1 hcb) hslot
    refine ⟨fun _ _ hsend => absurd (hcb.symm.trans hsend) (by decide), fun _ => ⟨?_, hinv'⟩⟩
    exact hinv'.echoed fun fd o hmem => by simp [hact] at hmem
  · obtain ⟨honly, hif⟩ := echo_sent hinv hlegal hcb hpos hslot hact
    refine ⟨honly, fun hsends => ⟨(hif hsends).echoed fun fd o hmem => ?_, hif hsends⟩⟩
    simp [hact] at hmem
  · obtain ⟨honly, hwhy⟩ := echo_closed r.1 hinv hlegal hact hcause
    have hinv' : TalkInv p (r.1, h ++ r.2) := by
      rw [hact]
      exact hinv.dropped hslot
    exact ⟨honly, fun hsends => ⟨hinv'.echoed fun _ _ _ => hwhy hsends, hinv'⟩⟩

/-- **One turn.**  From a state of the invariant, a legal turn is right exactly when it sends
everything it has, and then the invariant holds again. -/
lemma echo_step {s : World × List Act} {l : Turn × Io} (h : TalkInv p s)
    (hlegal : TurnLegal s.1 l) :
    ∃ r, recorded turnStep l s = some r ∧ (Echoed p s l r → SendsAll p s l) ∧
      (SendsAll p s l → Echoed p s l r ∧ TalkInv p r.1) := by
  obtain ⟨w, hist⟩ := s
  obtain ⟨turn, io⟩ := l
  obtain ⟨r, hr, hcase⟩ := turn_cases hlegal
  refine ⟨_, recorded_of_eq hr, ?_⟩
  by_cases hp : p = turn.slot
  swap
  · obtain ⟨hslot, hrx, htx, hclose⟩ := hcase.other hp
    have hsends : SendsAll p (w, hist) (turn, io) := by
      rintro rfl
      exact absurd rfl hp
    have hinv : TalkInv p (r.1, hist ++ r.2) := by
      unfold TalkInv
      rw [rx_append, tx_append, hrx, htx, List.append_nil, List.append_nil, hslot]
      exact h
    exact ⟨fun _ => hsends, fun _ => ⟨hinv.echoed fun fd o hmem => absurd hmem (hclose fd o), hinv⟩⟩
  rw [← hp] at hcase
  rcases hcase with ⟨rfl, hcase⟩ | ⟨now, rfl, hslot, hact⟩ | ⟨now, rfl, rfl⟩
  · exact echo_called h hlegal hcase
  · have hinv : TalkInv p (r.1, hist ++ r.2) := by
      rw [hact]
      exact h.dropped hslot
    exact ⟨fun _ hcall => absurd hcall (by simp),
      fun _ => ⟨hinv.echoed fun _ _ _ => trivial, hinv⟩⟩
  · have hinv : TalkInv p (w, hist ++ []) := by rwa [List.append_nil]
    exact ⟨fun _ hcall => absurd hcall (by simp), fun _ => ⟨hinv.echoed (by simp), hinv⟩⟩

/-- **Echo fidelity, exactly.**  For a connection that waits for its first data, and a run of
callbacks and timeouts on the slots of the server, the bytes sent are a prefix of the bytes
received, equal to them whenever the connection waits for data again, and the connection is
closed only for a good reason, at every step of the run, if and only if every `senddata` of the
connection fails or has less than a full buffer to send and sends all of it. -/
theorem echoed_iff_sendsAll (w : World) (p : Slot) (hp : (w.slot p).Receiving)
    (ls : List (Turn × Io))
    (hls : Allowed (recorded turnStep) (fun s l => TurnLegal s.1 l) ls (w, [])) :
    Throughout (recorded turnStep) (Echoed p) ls (w, []) ↔
      Allowed (recorded turnStep) (SendsAll p) ls (w, []) := by
  refine throughout_iff_allowed (TalkInv p) ?_ ?_ (.receiving hp rfl) hls
  · intro s l hs hl
    obtain ⟨r, hr, honly, hif⟩ := echo_step hs hl
    constructor
    · rintro ⟨r', hr', hecho⟩
      obtain rfl : r = r' := Option.some.inj (hr.symm.trans hr')
      exact honly hecho
    · intro hsends
      exact ⟨r, hr, (hif hsends).1⟩
  · intro s l r hs hl hsends hr
    obtain ⟨r', hr', -, hif⟩ := echo_step hs hl
    obtain rfl : r' = r := Option.some.inj (hr'.symm.trans hr)
    exact (hif hsends).2

/-- `recv` returns these bytes, and `send` returns `n`. -/
def Io.moving (bytes : List UInt8) (hpos : 0 < bytes.length) (hle : bytes.length ≤ bufLen)
    (n : ℤ) : Io :=
  { Io.still true with recv := fun _ => .data bytes hpos hle, send := fun _ => n }

lemma connected_receiving : (World.connected.slot 0).Receiving := by
  rw [connected_slot_zero]
  exact ⟨rfl, rfl, rfl⟩

section Message

variable (bytes) (hpos : 0 < bytes.length) (hle : bytes.length ≤ bufLen) (n : ℤ)

/-- A message has come in on the connection. -/
lemma connected_recv :
    ∃ w, recorded turnStep (.callback 0, Io.moving bytes hpos hle n) (World.connected, []) =
        some ((w, [.recv 0 5 bytes]), [.recv 0 5 bytes]) ∧
      (w.slot 0).status = 1 ∧ (w.slot 0).callBack = .senddata ∧
      (w.slot 0).len = (received bytes hle (World.connected.slot 0)).len := by
  have hfd : (World.connected.slot 0).fd = 5 := by
    rw [connected_slot_zero]
    rfl
  have hrecv : (Io.moving bytes hpos hle n).recv (World.connected.slot 0).fd =
      .data bytes hpos hle := rfl
  obtain ⟨hslot, hact⟩ := recvdata_data (m := (World.connected.slot 0).events) hrecv
  obtain ⟨w, hstep, hslot⟩ : ∃ w,
      turnStep (.callback 0, Io.moving bytes hpos hle n) World.connected =
        some (w, [.recv 0 5 bytes]) ∧
      Rearmed (Io.moving bytes hpos hle n) 0 .senddata epollOut (received bytes hle)
        World.connected w := by
    rw [hfd] at hslot hact
    have harg : (World.connected.slot 0).arg = some 0 := by
      rw [connected_slot_zero]
      rfl
    simp only [turnStep, connected_receiving.2.1, harg, invoke, hfd]
    exact ⟨_, congrArg some (Prod.ext rfl hact), hslot⟩
  have hrecorded := recorded_of_eq (s := (World.connected, [])) hstep
  refine ⟨w, hrecorded, ?_, ?_, ?_⟩
  all_goals
    rw [hslot.slot_self]
    rfl

/-- The answer to the message is legal. -/
lemma message_legal (hn : SendLegal n (received bytes hle (World.connected.slot 0)).len) :
    Allowed (recorded turnStep) (fun s l => TurnLegal s.1 l)
      [(.callback 0, Io.moving bytes hpos hle n), (.callback 0, Io.moving bytes hpos hle n)]
      (World.connected, []) := by
  obtain ⟨w, hw, hs, hcb, hlen⟩ := connected_recv bytes hpos hle n
  refine allowed_cons.2 ⟨⟨connected_receiving.1, Or.inl connected_receiving.2.1⟩, ?_⟩
  intro r hr
  obtain rfl := Option.some.inj (hw.symm.trans hr)
  refine allowed_cons.2 ⟨⟨hs, Or.inr ⟨hcb, ?_⟩⟩, fun _ _ => allowed_nil _ _⟩
  rw [hlen]
  exact hn

end Message

theorem echoed_iff_sendsAll_message :
    Throughout (recorded turnStep) (Echoed 0)
      [(.callback 0, Io.moving [104, 105] (by decide) (by decide) 2),
        (.callback 0, Io.moving [104, 105] (by decide) (by decide) 2)]
      (World.connected, []) := by
  obtain ⟨w, hw, hs, hcb, hlen⟩ := connected_recv [104, 105] (by decide) (by decide) 2
  refine (echoed_iff_sendsAll World.connected 0 connected_receiving _
    (message_legal _ _ _ _ ?_)).2 ?_
  · rw [(received_of_lt (by decide)).1]
    exact Or.inr (Or.inl ⟨by decide, by decide⟩)
  · refine allowed_cons.2 ⟨fun _ h => absurd (connected_receiving.2.1.symm.trans h) (by decide), ?_⟩
    intro r hr
    obtain rfl := Option.some.inj (hw.symm.trans hr)
    refine allowed_cons.2 ⟨fun _ _ => Or.inr ⟨?_, rfl⟩, fun _ _ => allowed_nil _ _⟩
    simp [unsent, bufLen]

/-- A message of exactly `BUFLEN` bytes: its length is overwritten with 0, `send` is asked to
send nothing and does so, and the connection is closed. -/
theorem full_buffer_not_echoed :
    ¬ ∀ ls : List (Turn × Io),
      Allowed (recorded turnStep) (fun s l => TurnLegal s.1 l) ls (World.connected, []) →
        Throughout (recorded turnStep) (Echoed 0) ls (World.connected, []) := by
  intro h
  have hfull : (List.replicate bufLen (65 : UInt8)).length = bufLen := List.length_replicate
  have hpos : 0 < (List.replicate bufLen (65 : UInt8)).length := by
    rw [hfull]
    decide
  have hlegal := message_legal _ hpos hfull.le 0 (Or.inr (Or.inr ⟨rfl, received_of_eq hfull⟩))
  obtain ⟨w, hw, hs, hcb, -⟩ := connected_recv _ hpos hfull.le 0
  obtain ⟨r, hr, -, r', hr', hecho, -⟩ := h _ hlegal
  obtain rfl := Option.some.inj (hw.symm.trans hr)
  -- the message itself is received properly, which gives the invariant
  have hinv : TalkInv 0 (World.connected, []) := .receiving connected_receiving rfl
  obtain ⟨q, hq, -, hif⟩ := echo_step hinv hlegal.1
  obtain rfl := Option.some.inj (hw.symm.trans hq)
  have hrest := hlegal.2 _ hw
  obtain ⟨q', hq', honly, -⟩ := echo_step
    (hif fun _ h => absurd (connected_receiving.2.1.symm.trans h) (by decide)).2 hrest.1
  obtain rfl := Option.some.inj (hq'.symm.trans hr')
  rcases honly hecho rfl hcb with hneg | ⟨hlt, -⟩
  · exact absurd hneg (by simp [Io.moving])
  · simp [unsent] at hlt

end LibeventLearn.Reactor
