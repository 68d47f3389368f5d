import LibeventLearn.EpollDemo.Reply
import LibeventLearn.Lib.Simulation

/-!
# The protocol of a client

Seen from one client, the server is a small machine: it reads a piece of at most five bytes,
answers it in upper case up to its first zero, and when it can write again it sends a whole blank
buffer; only then does it read again, and only then does it close the connection.  Whatever the
batches are, also those that mix the listening socket with clients, the server refines a machine
of this kind for every descriptor.  So all that it ever writes to a client is known from what it
has read, and a descriptor whose registration has been refused is never closed.
-/

namespace LibeventLearn.EpollDemo

open Lib Epoll

/-! ## The machine of one client -/

/-- What the server does next with a client. -/
inductive Phase where
  | closed
  | reading
  | answering (bytes : List UInt8)
  | flushing

/-- What happens to a client. -/
inductive ConnEvent where
  | accepted
  | received (bytes : List UInt8)
  | sent (bytes : List UInt8)
  | closed
deriving DecidableEq

/-- The answer to a piece. -/
def reply (bytes : List UInt8) : List UInt8 := (cText bytes).map toupper

/-- The whole buffer, when it is blank. -/
def wholeBuffer : List UInt8 := List.replicate bufferMaxLen 0

/-- The machine. -/
inductive ConnStep : Phase → ConnEvent → Phase → Prop
  | accepted : ConnStep .closed .accepted .reading
  | received {bytes : List UInt8} (hpos : 0 < bytes.length) (hle : bytes.length ≤ readLen) :
      ConnStep .reading (.received bytes) (.answering bytes)
  | answered {bytes : List UInt8} : ConnStep (.answering bytes) (.sent (reply bytes)) .flushing
  | flushed : ConnStep .flushing (.sent wholeBuffer) .reading
  | closed : ConnStep .reading .closed .closed

/-- What is still to be sent. -/
def Phase.owed : Phase → List (List UInt8)
  | .answering bytes => [reply bytes, wholeBuffer]
  | .flushing => [wholeBuffer]
  | _ => []

/-- What is to be sent for an event. -/
@[simp]
def ConnEvent.due : ConnEvent → List (List UInt8)
  | .received bytes => [reply bytes, wholeBuffer]
  | _ => []

/-- What is sent by an event. -/
@[simp]
def ConnEvent.paid : ConnEvent → List (List UInt8)
  | .sent bytes => [bytes]
  | _ => []

/-- 1 for a connection that there is. -/
def Phase.live : Phase → ℕ
  | .closed => 0
  | _ => 1

lemma ConnStep.settle {a b : Phase} {e : ConnEvent} (h : ConnStep a e b) :
    a.owed ++ e.due = e.paid ++ b.owed := by
  cases h <;> rfl

lemma ConnStep.balance {a b : Phase} {e : ConnEvent} (h : ConnStep a e b) :
    a.live + (e == .accepted).toNat = b.live + (e == .closed).toNat := by
  cases h <;> rfl

/-! ## What the calls show -/

/-- What a call is to the client. -/
def Call.event : Call → Option (ℤ × ConnEvent)
  | .accept _ (some fd) => some (fd, .accepted)
  | .read fd (b :: bytes) => some (fd, .received (b :: bytes))
  | .write fd bytes => some (fd, .sent bytes)
  | .close fd => some (fd, .closed)
  | _ => none

/-- The pieces read from a descriptor. -/
def piecesOn (c : ℤ) (h : List Call) : List (List UInt8) :=
  h.filterMap fun a => match a with
    | .read fd bytes => if fd = c ∧ bytes ≠ [] then some bytes else none
    | _ => none

/-- The client that a call is about. -/
def Call.client : Call → Option ℤ
  | .accept _ result => result
  | .read fd _ => some fd
  | .write fd _ => some fd
  | .close fd => some fd
  | .print _ => none

/-- An `accept` that returned this descriptor. -/
def Call.accepts (c : ℤ) : Call → Bool
  | .accept _ result => result == some c
  | _ => false

variable {listenFd head c cfd : ℤ} {l : Entry × Io} {es : List (Entry × Io)} {s : Server}
  {f : ℤ → Phase} {h : List Call} {k : Kernel ℤ}

lemma writesOn_cons (a : Call) (h : List Call) :
    writesOn c (a :: h) = writesOn c [a] ++ writesOn c h :=
  List.filterMap_append (l := [a])

lemma piecesOn_cons (a : Call) (h : List Call) :
    piecesOn c (a :: h) = piecesOn c [a] ++ piecesOn c h :=
  List.filterMap_append (l := [a])

lemma eventsAt_event_cons (a : Call) (h : List Call) :
    eventsAt c ((a :: h).filterMap Call.event) =
      eventsAt c ([a].filterMap Call.event) ++ eventsAt c (h.filterMap Call.event) := by
  rw [← List.singleton_append, List.filterMap_append, eventsAt, List.filterMap_append]
  rfl

/-- What the events of a client pay is what is written to it. -/
lemma paid_eventsAt (h : List Call) :
    (eventsAt c (h.filterMap Call.event)).flatMap ConnEvent.paid = writesOn c h := by
  induction h with
  | nil => rfl
  | cons a h ih =>
    rw [eventsAt_event_cons, List.flatMap_append, ih, writesOn_cons]
    congr 1
    cases a with
    | accept fd result => cases result <;> simp [Call.event, eventsAt, writesOn]
    | read fd bytes => cases bytes <;> simp [Call.event, eventsAt, writesOn]
    | write fd bytes => by_cases hfd : fd = c <;> simp [Call.event, eventsAt, writesOn, hfd]
    | close fd => simp [Call.event, eventsAt, writesOn]
    | print text => rfl

/-- What is due for the events of a client are the answers to the pieces read from it. -/
lemma due_eventsAt (h : List Call) :
    (eventsAt c (h.filterMap Call.event)).flatMap ConnEvent.due =
      (piecesOn c h).flatMap fun bytes => [reply bytes, wholeBuffer] := by
  induction h with
  | nil => rfl
  | cons a h ih =>
    rw [eventsAt_event_cons, List.flatMap_append, ih, piecesOn_cons, List.flatMap_append]
    congr 1
    cases a with
    | accept fd result => cases result <;> simp [Call.event, eventsAt, piecesOn]
    | read fd bytes =>
      cases bytes with
      | nil => simp [Call.event, eventsAt, piecesOn]
      | cons b bytes => by_cases hfd : fd = c <;> simp [Call.event, eventsAt, piecesOn, hfd]
    | write fd bytes => simp [Call.event, eventsAt, piecesOn]
    | close fd => simp [Call.event, eventsAt, piecesOn]
    | print text => rfl

/-- The accepts and the closes of a client are events of its own. -/
lemma countP_eventsAt (h : List Call) :
    (eventsAt c (h.filterMap Call.event)).countP (· == .accepted) = h.countP (Call.accepts c) ∧
      (eventsAt c (h.filterMap Call.event)).countP (· == .closed) = h.count (.close c) := by
  induction h with
  | nil => exact ⟨rfl, rfl⟩
  | cons a h ih =>
    rw [eventsAt_event_cons, List.countP_append, List.countP_append, ih.1, ih.2, List.countP_cons,
      List.count_cons]
    suffices hone : (eventsAt c ([a].filterMap Call.event)).countP (· == .accepted) =
          (if Call.accepts c a = true then 1 else 0) ∧
        (eventsAt c ([a].filterMap Call.event)).countP (· == .closed) =
          if (a == .close c) = true then 1 else 0 by
      rw [hone.1, hone.2]
      exact ⟨Nat.add_comm _ _, Nat.add_comm _ _⟩
    cases a with
    | accept fd result =>
      cases result with
      | none => exact ⟨rfl, rfl⟩
      | some cfd =>
        by_cases hfd : cfd = c <;> simp [Call.event, eventsAt, Call.accepts, hfd]
    | read fd bytes =>
      cases bytes with
      | nil => exact ⟨rfl, rfl⟩
      | cons b bytes => by_cases hfd : fd = c <;> simp [Call.event, eventsAt, Call.accepts, hfd]
    | write fd bytes => by_cases hfd : fd = c <;> simp [Call.event, eventsAt, Call.accepts, hfd]
    | close fd => by_cases hfd : fd = c <;> simp [Call.event, eventsAt, Call.accepts, hfd]
    | print text => exact ⟨rfl, rfl⟩

/-! ## What the kernel shows -/

/-- The phase of a client, by what the kernel has of its descriptor. -/
inductive ShowsAt (c : ℤ) : Bool → Option (Mask × ℤ) → Phase → Prop
  | closed : ShowsAt c false none .closed
  | waiting {m : Mask} (hm : InMask m) : ShowsAt c true (some (m, c)) .reading
  /-- The registration was refused. -/
  | unheard : ShowsAt c true none .reading
  | replying : ShowsAt c true (some (epollOut, c)) .flushing

lemma ShowsAt.of_closed {reg : Option (Mask × ℤ)} {a : Phase} (h : ShowsAt c false reg a) :
    a = .closed ∧ reg = none := by
  cases h
  exact ⟨rfl, rfl⟩

lemma ShowsAt.of_registered {o : Bool} {m : Mask} {d : ℤ} {a : Phase}
    (h : ShowsAt c o (some (m, d)) a) :
    d = c ∧ ((a = .reading ∧ InMask m) ∨ (a = .flushing ∧ m = epollOut)) := by
  cases h with
  | waiting hm => exact ⟨rfl, Or.inl ⟨rfl, hm⟩⟩
  | replying => exact ⟨rfl, Or.inr ⟨rfl, rfl⟩⟩

lemma ShowsAt.owed {o : Bool} {reg : Option (Mask × ℤ)} {a : Phase} (h : ShowsAt c o reg a) :
    a.owed = if reg = some (epollOut, c) then [wholeBuffer] else [] := by
  cases h with
  | closed => rfl
  | @waiting m hm =>
    have hne : m ≠ epollOut := by rcases hm with rfl | rfl <;> decide
    rw [if_neg fun heq => hne (congrArg Prod.fst (Option.some.inj heq))]
    rfl
  | unheard => rfl
  | replying =>
    rw [if_pos rfl]
    rfl

lemma ShowsAt.isOpen_of_closed {o : Bool} {reg : Option (Mask × ℤ)}
    (h : ShowsAt c o reg .closed) : o = false := by
  cases h
  rfl

lemma ShowsAt.live {o : Bool} {reg : Option (Mask × ℤ)} {a : Phase} (h : ShowsAt c o reg a) :
    a.live = o.toNat := by
  cases h <;> rfl

/-- Between two entries. -/
structure Shows (listenFd : ℤ) (s : Server) (f : ℤ → Phase) : Prop where
  blank : s.Blank
  listening : s.kernel.interest listenFd = some (epollIn, listenFd)
  listener : f listenFd = .closed
  client : ∀ c ≠ listenFd, ShowsAt c (s.kernel.isOpen c) (s.kernel.interest c) (f c)

/-- What the kernel promises besides `epoll_wait`: `accept` returns a new descriptor, a `read` on
the listening socket fails, and `epoll_ctl` changes a registration it is asked to change. -/
structure Promised (listenFd head : ℤ) (s : Server) (l : Entry × Io) : Prop where
  fresh : head = listenFd → ∀ fd, l.2.accept = some fd → s.kernel.isOpen fd = false
  read : head ≠ listenFd → l.1.fd = listenFd → l.2.read = .error
  mod : ∀ fd, l.2.ctl .mod fd = true

/-- A batch is one that `epoll_wait` may return, and the kernel keeps its promises while it is
handled. -/
def BatchLegal (listenFd : ℤ) (s : Server) (es : List (Entry × Io)) : Prop :=
  s.kernel.WaitReturns (es.map fun l => (l.1.events, l.1.fd)) ∧
    Allowed (handleEntry listenFd (headFd es)) (Promised listenFd (headFd es)) es s

/-- The entry is that of a registered descriptor. -/
def Awaited (s : Server) (l : Entry × Io) : Prop :=
  ∃ m, s.kernel.interest l.1.fd = some (m, l.1.fd) ∧ Reportable m l.1.events

lemma Awaited.isOpen (ha : Awaited s l) : s.kernel.isOpen l.1.fd = true := by
  obtain ⟨m, hint, -⟩ := ha
  exact s.kernel.open_of_registered _ (by rw [hint]; exact Option.some_ne_none _)

/-- An entry leaves the registrations of the entries that are still to come. -/
lemma Awaited.after {l' : Entry × Io} (ha : Awaited s l') (hne : l.1.fd ≠ l'.1.fd)
    (hp : Promised listenFd head s l) :
    Awaited { s with kernel := kernelAfter listenFd head l s.kernel } l' := by
  obtain ⟨m, hint, hbits⟩ := ha
  refine ⟨m, ?_, hbits⟩
  rw [← hint]
  refine kernelAfter_interest_elsewhere (Or.inr hne) fun hh haccept => ?_
  have hclosed := hp.fresh hh _ haccept
  rw [Awaited.isOpen ⟨m, hint, hbits⟩] at hclosed
  cases hclosed

namespace Shows

/-- The user data of a registration is the descriptor. -/
lemma data (hs : Shows listenFd s f) {m : Mask} {d : ℤ}
    (hint : s.kernel.interest c = some (m, d)) : d = c := by
  rcases eq_or_ne c listenFd with rfl | hc
  · rw [hs.listening] at hint
    exact (congrArg Prod.snd (Option.some.inj hint)).symm
  · have hshow := hs.client c hc
    rw [hint] at hshow
    exact hshow.of_registered.1

/-- After a change at one client. -/
lemma change (hs : Shows listenFd s f) (hc : c ≠ listenFd)
    (hopen : ∀ fd ≠ c, k.isOpen fd = s.kernel.isOpen fd)
    (hint : ∀ fd ≠ c, k.interest fd = s.kernel.interest fd) {a : Phase}
    (ha : ShowsAt c (k.isOpen c) (k.interest c) a) :
    Shows listenFd { s with kernel := k } (Function.update f c a) := by
  refine ⟨hs.blank, (hint _ hc.symm).trans hs.listening, ?_, fun fd hfd => ?_⟩
  · rw [Function.update_of_ne hc.symm]
    exact hs.listener
  · rcases eq_or_ne fd c with rfl | hne
    · rw [Function.update_self]
      exact ha
    · rw [Function.update_of_ne hne, hopen fd hne, hint fd hne]
      exact hs.client fd hfd

/-- `accept` succeeds, whether the registration is refused or not. -/
lemma accepted (hs : Shows listenFd s f) (hclosed : s.kernel.isOpen cfd = false) (granted : Bool) :
    ∃ f', Trace (AtKey ConnStep) f [(cfd, .accepted)] f' ∧ Shows listenFd
      { s with
        kernel := ((s.kernel.opened cfd).epollCtl granted .add cfd
          (epollIn ||| epollEt, cfd)).2 } f' := by
  have hne : cfd ≠ listenFd := by
    rintro rfl
    rw [s.kernel.open_of_registered _ (by rw [hs.listening]; exact Option.some_ne_none _)]
      at hclosed
    cases hclosed
  have hshow := hs.client cfd hne
  rw [hclosed] at hshow
  obtain ⟨hphase, hnone⟩ := hshow.of_closed
  refine ⟨_, .single (.intro (b := .reading) (by rw [hphase]; exact .accepted)),
    hs.change hne (fun fd hfd => ?_) (fun fd hfd => ?_) ?_⟩
  · rw [Kernel.epollCtl_isOpen, Kernel.opened_isOpen, Function.update_of_ne hfd]
  · rw [Kernel.epollCtl_interest_of_ne hfd, Kernel.opened_interest]
  · rw [Kernel.epollCtl_isOpen, Kernel.epollCtl_add_interest, Kernel.opened_isOpen,
      Kernel.opened_interest, Function.update_self, hnone]
    cases granted with
    | true => exact .waiting (Or.inr rfl)
    | false => exact .unheard

/-- An entry of a client that the server waits to read from. -/
lemma read (hs : Shows listenFd s f) (hh : head ≠ listenFd) (hc : l.1.fd ≠ listenFd)
    (hphase : f l.1.fd = .reading) (hopen : s.kernel.isOpen l.1.fd = true)
    (hreg : s.kernel.interest l.1.fd ≠ none) (hout : l.1.events.has epollOut = false)
    (hmod : ∀ fd, l.2.ctl .mod fd = true) :
    ∃ f', Trace (AtKey ConnStep) f ((answer listenFd head l).filterMap Call.event) f' ∧
      Shows listenFd { s with kernel := kernelAfter listenFd head l s.kernel } f' := by
  unfold answer kernelAfter
  rw [if_neg hh, if_neg hh]
  by_cases hin : l.1.events.has epollIn = true
  swap
  · rw [if_neg hin, if_neg hin, hout]
    exact ⟨f, .nil f, hs⟩
  rw [if_pos hin, if_pos hin]
  cases l.2.read with
  | error => exact ⟨f, .nil f, hs⟩
  | eof =>
    refine ⟨_, .single (.intro (b := .closed) (by rw [hphase]; exact .closed)),
      hs.change hc (fun fd hfd => ?_) (fun fd hfd => ?_) ?_⟩
    · rw [Kernel.close_isOpen, Function.update_of_ne hfd, Kernel.epollCtl_isOpen]
    · rw [Kernel.close_interest, Function.update_of_ne hfd, Kernel.epollCtl_interest_of_ne hfd]
    · rw [Kernel.close_isOpen, Kernel.close_interest, Function.update_self, Function.update_self]
      exact .closed
  | data bytes hpos hle =>
    obtain ⟨b, rest, rfl⟩ := List.exists_cons_of_length_pos hpos
    refine ⟨Function.update (Function.update f l.1.fd (.answering (b :: rest))) l.1.fd .flushing,
      .cons (.intro (by rw [hphase]; exact .received hpos hle)) (.single (.intro ?_)), ?_⟩
    · rw [Function.update_self]
      exact .answered
    · rw [Function.update_idem]
      refine hs.change hc (fun fd hfd => ?_) (fun fd hfd => ?_) ?_
      · rw [Kernel.epollCtl_isOpen]
      · rw [Kernel.epollCtl_interest_of_ne hfd]
      · rw [Kernel.epollCtl_isOpen, hopen, Kernel.epollCtl_mod_interest, if_pos ⟨hmod _, hreg⟩]
        exact .replying

/-- An entry of a client that the server waits to write to. -/
lemma flush (hs : Shows listenFd s f) (hh : head ≠ listenFd) (hc : l.1.fd ≠ listenFd)
    (hphase : f l.1.fd = .flushing) (hopen : s.kernel.isOpen l.1.fd = true)
    (hreg : s.kernel.interest l.1.fd ≠ none) (hin : l.1.events.has epollIn = false)
    (hmod : ∀ fd, l.2.ctl .mod fd = true) :
    ∃ f', Trace (AtKey ConnStep) f ((answer listenFd head l).filterMap Call.event) f' ∧
      Shows listenFd { s with kernel := kernelAfter listenFd head l s.kernel } f' := by
  unfold answer kernelAfter
  rw [if_neg hh, if_neg hh, hin, if_neg Bool.false_ne_true, if_neg Bool.false_ne_true]
  split
  · refine ⟨_, .single (.intro (b := .reading) (by rw [hphase]; exact .flushed)),
      hs.change hc (fun fd hfd => ?_) (fun fd hfd => ?_) ?_⟩
    · rw [Kernel.epollCtl_isOpen]
    · rw [Kernel.epollCtl_interest_of_ne hfd]
    · rw [Kernel.epollCtl_isOpen, hopen, Kernel.epollCtl_mod_interest, if_pos ⟨hmod _, hreg⟩]
      exact .waiting (Or.inl rfl)
  · exact ⟨f, .nil f, hs⟩

/-- The entry of the listening socket, where it is taken for one of a client. -/
lemma mistaken (hs : Shows listenFd s f) (hh : head ≠ listenFd) (hread : l.2.read = .error)
    (hout : l.1.events.has epollOut = false) :
    ∃ f', Trace (AtKey ConnStep) f ((answer listenFd head l).filterMap Call.event) f' ∧
      Shows listenFd { s with kernel := kernelAfter listenFd head l s.kernel } f' := by
  unfold answer kernelAfter
  rw [if_neg hh, if_neg hh, hread, hout]
  refine ⟨f, ?_, ?_⟩ <;> split
  · exact .nil f
  · exact .nil f
  · exact hs
  · exact hs

/-- **One entry.** -/
lemma entry (hs : Shows listenFd s f) (ha : Awaited s l) (hp : Promised listenFd head s l) :
    ∃ f', Trace (AtKey ConnStep) f ((answer listenFd head l).filterMap Call.event) f' ∧
      Shows listenFd { s with kernel := kernelAfter listenFd head l s.kernel } f' := by
  have hopen := ha.isOpen
  obtain ⟨m, hint, hbits⟩ := ha
  have hreg : s.kernel.interest l.1.fd ≠ none := by rw [hint]; exact Option.some_ne_none _
  by_cases hh : head = listenFd
  · cases haccept : l.2.accept with
    | none =>
      refine ⟨f, ?_, ?_⟩
      · rw [answer, if_pos hh, haccept]
        exact .nil f
      · rw [kernelAfter, if_pos hh, haccept]
        exact hs
    | some fd =>
      obtain ⟨f', ht, hs'⟩ := hs.accepted (hp.fresh hh fd haccept) (l.2.ctl .add fd)
      refine ⟨f', ?_, ?_⟩
      · rw [answer, if_pos hh, haccept]
        exact ht
      · rw [kernelAfter, if_pos hh, haccept]
        exact hs'
  by_cases hc : l.1.fd = listenFd
  · -- the listening socket is registered under `EPOLLIN`
    rw [hc, hs.listening] at hint
    obtain rfl : epollIn = m := congrArg Prod.fst (Option.some.inj hint)
    have hm : InMask epollIn := Or.inl rfl
    exact hs.mistaken hh (hp.read hh hc) (hm.not_reportable hbits)
  have hshow := hs.client l.1.fd hc
  rw [hint] at hshow
  rcases hshow.of_registered.2 with ⟨hphase, hm⟩ | ⟨hphase, rfl⟩
  · exact hs.read hh hc hphase hopen hreg (hm.not_reportable hbits) hp.mod
  · exact hs.flush hh hc hphase hopen hreg (hbits.has_eq_false (by decide)) hp.mod

/-! ## Batches -/

/-- What `epoll_wait` returns. -/
lemma awaited (hs : Shows listenFd s f)
    (hwait : s.kernel.WaitReturns (es.map fun l => (l.1.events, l.1.fd))) :
    es.Pairwise (fun l l' => l.1.fd ≠ l'.1.fd) ∧ ∀ l ∈ es, Awaited s l := by
  obtain ⟨fds, hnodup, hall⟩ := hwait
  rw [List.forall₂_map_right_iff] at hall
  suffices hsuff : fds = es.map (fun l => l.1.fd) ∧ ∀ l ∈ es, Awaited s l by
    obtain ⟨rfl, hes⟩ := hsuff
    exact ⟨List.pairwise_map.1 hnodup, hes⟩
  clear hnodup
  induction hall with
  | nil => exact ⟨rfl, fun l hl => absurd hl List.not_mem_nil⟩
  | @cons fd l fds es hl _ ih =>
    obtain ⟨m, hint, hbits⟩ := hl
    obtain ⟨rfl, hes⟩ := ih
    have hfd : l.1.fd = fd := hs.data hint
    subst hfd
    exact ⟨rfl, List.forall_mem_cons.2 ⟨⟨m, hint, hbits⟩, hes⟩⟩

end Shows

/-- Each entry of a batch is that of a registered descriptor when its turn comes. -/
lemma batch_awaited (hs : s.Blank) (hdistinct : es.Pairwise fun l l' => l.1.fd ≠ l'.1.fd)
    (hes : ∀ l ∈ es, Awaited s l)
    (hp : Allowed (handleEntry listenFd head) (Promised listenFd head) es s) :
    Allowed (handleEntry listenFd head) Awaited es s := by
  induction es generalizing s with
  | nil => trivial
  | cons l es ih =>
    obtain ⟨hne, hdistinct⟩ := List.pairwise_cons.1 hdistinct
    rw [List.forall_mem_cons] at hes
    refine ⟨hes.1, fun r hr => ?_⟩
    have hrest := hp.2 r hr
    obtain rfl := Option.some.inj ((handleEntry_blank hs).symm.trans hr)
    exact ih hs hdistinct (fun l' hl' => (hes.2 l' hl').after (hne l' hl') hp.1) hrest

/-- **One batch.** -/
lemma Shows.batch (hs : Shows listenFd s f) (hl : BatchLegal listenFd s es)
    {q : Server × List Call} (hq : handleBatch listenFd es s = some q) :
    ∃ f', Trace (AtKey ConnStep) f (q.2.filterMap Call.event) f' ∧ Shows listenFd q.1 f' := by
  obtain ⟨hwait, hp⟩ := hl
  obtain ⟨hdistinct, hes⟩ := hs.awaited hwait
  refine exec_simulates Call.event (Shows listenFd) (fun s f l r hs hl hr => ?_) hs
    ((batch_awaited hs.blank hdistinct hes hp).and hp) hq
  obtain rfl := Option.some.inj ((handleEntry_blank hs.blank).symm.trans hr)
  exact hs.entry hl.1 hl.2

/-! ## The start of the server -/

lemma shows_start (listenFd : ℤ) : Shows listenFd (Server.start listenFd) fun _ => .closed := by
  refine ⟨blank_start listenFd, ?_, rfl, fun c hc => ?_⟩
  · simp [Server.start, Kernel.epollCtl_add_interest, Kernel.empty]
  · have hopen : (Server.start listenFd).kernel.isOpen c = false := by
      simp [Server.start, Kernel.empty, hc]
    have hint : (Server.start listenFd).kernel.interest c = none := by
      simp [Server.start, Kernel.epollCtl_interest_of_ne hc, Kernel.empty]
    rw [hopen, hint]
    exact .closed

lemma simulates_start {bs : List (List (Entry × Io))}
    (hbs : Allowed (handleBatch listenFd) (BatchLegal listenFd) bs (Server.start listenFd)) :
    ∃ q f, exec (handleBatch listenFd) bs (Server.start listenFd) = some q ∧
      Trace (AtKey ConnStep) (fun _ => .closed) (q.2.filterMap Call.event) f ∧
      Shows listenFd q.1 f := by
  obtain ⟨q, hq, -, -⟩ := exec_handleBatch_blank listenFd bs (blank_start listenFd)
  obtain ⟨f, ht, hs⟩ := exec_simulates Call.event (Shows listenFd)
    (fun s f es r hs hl hr => hs.batch hl hr) (shows_start listenFd) hbs hq
  exact ⟨q, f, hq, ht, hs⟩

/-- A connection comes in alone. -/
def Entry.arrives (listenFd fd : ℤ) (granted : Bool) : Entry × Io :=
  (⟨epollIn, listenFd⟩, ⟨some fd, .error, fun op _ => granted || op == .mod⟩)

lemma Shows.arrives_legal (hs : Shows listenFd s f) (hclosed : s.kernel.isOpen cfd = false)
    (granted : Bool) : BatchLegal listenFd s [Entry.arrives listenFd cfd granted] := by
  have hbits : Reportable epollIn epollIn := by decide
  refine ⟨Kernel.waitReturns_singleton hs.listening hbits, ⟨fun _ fd hfd => ?_, fun _ _ => rfl,
    fun fd => Bool.or_true _⟩, fun _ _ => trivial⟩
  obtain rfl : cfd = fd := Option.some.inj hfd
  exact hclosed

/-- The server after a connection has come in. -/
lemma handleBatch_arrives (s : Server) (granted : Bool) :
    handleBatch listenFd [Entry.arrives listenFd cfd granted] s =
      some ({ s with kernel := ((s.kernel.opened cfd).epollCtl granted .add cfd
        (epollIn ||| epollEt, cfd)).2 }, [.accept listenFd (some cfd)]) := by
  show exec (handleEntry listenFd listenFd) [Entry.arrives listenFd cfd granted] s = _
  rw [exec_cons, handleEntry, if_pos rfl]
  cases granted <;> rfl

lemma start_closed (hc : c ≠ listenFd) : (Server.start listenFd).kernel.isOpen c = false :=
  ((shows_start listenFd).client c hc).isOpen_of_closed

/-! ## A visit -/

/-- An entry of a client alone. -/
lemma client_legal {m : Mask} (hc : l.1.fd ≠ listenFd)
    (hint : s.kernel.interest l.1.fd = some (m, l.1.fd)) (hbits : Reportable m l.1.events)
    (hmod : ∀ fd, l.2.ctl .mod fd = true) : BatchLegal listenFd s [l] :=
  ⟨Kernel.waitReturns_singleton hint hbits,
    ⟨fun hh => absurd hh hc, fun _ hfd => absurd hfd hc, hmod⟩, fun _ _ => trivial⟩

/-- The server after an entry that comes alone. -/
lemma handleBatch_singleton (hs : s.Blank) (l : Entry × Io) :
    handleBatch listenFd [l] s =
      some ({ s with kernel := kernelAfter listenFd l.1.fd l s.kernel },
        answer listenFd l.1.fd l) := by
  show exec (handleEntry listenFd l.1.fd) [l] s = _
  rw [exec_cons, handleEntry_blank hs, Option.bind_some, exec_nil, Option.map_some,
    List.append_nil]

/-- The client closes its side. -/
def Entry.leaves (fd : ℤ) : Entry × Io := (⟨epollIn, fd⟩, ⟨none, .eof, fun _ _ => true⟩)

/-- A client comes, says "hi", takes both parts of the answer, and leaves. -/
def visit : List (List (Entry × Io)) :=
  [[Entry.arrives 4 5 true], [hello], [Entry.writable 5], [Entry.leaves 5]]

lemma visit_legal : Allowed (handleBatch 4) (BatchLegal 4) visit (Server.start 4) := by
  have hanswering : ({ Server.serving with
      kernel := kernelAfter 4 5 hello Server.serving.kernel } : Server).Blank := serving_blank
  refine ⟨(shows_start 4).arrives_legal (start_closed (by decide)) true, fun r hr => ?_⟩
  obtain rfl := Option.some.inj ((handleBatch_arrives _ _).symm.trans hr)
  refine ⟨client_legal (by decide) serving_interest (by decide) fun _ => rfl, fun r hr => ?_⟩
  obtain rfl := Option.some.inj ((handleBatch_singleton serving_blank hello).symm.trans hr)
  refine ⟨client_legal (by decide) kernelAfter_hello (by decide) fun _ => rfl, fun r hr => ?_⟩
  obtain rfl := Option.some.inj
    ((handleBatch_singleton hanswering (Entry.writable 5)).symm.trans hr)
  refine ⟨client_legal (m := epollIn) (by decide) rfl (by decide) fun _ => rfl, fun r hr => ?_⟩
  exact allowed_nil _ _

/-- The calls of the visit. -/
def visitCalls : List Call :=
  [.accept 4 (some 5), .read 5 [104, 105], .print [104, 105], .write 5 [72, 73], .print [72, 73],
    .write 5 wholeBuffer, .print [], .read 5 [], .close 5]

lemma exec_visit {q : Server × List Call}
    (hq : exec (handleBatch 4) visit (Server.start 4) = some q) : q.2 = visitCalls := by
  obtain ⟨q', hq', -, hcalls⟩ := exec_handleBatch_blank 4 visit (blank_start 4)
  obtain rfl := Option.some.inj (hq'.symm.trans hq)
  exact hcalls

/-! ## The life of the server -/

/-- **The server refines the protocol.**  In every run of the server, whatever its batches are, the
machine of every descriptor goes through what is seen of the calls on it, and the kernel shows
the phases they end in. -/
theorem handleBatch_refines_protocol (listenFd : ℤ) (bs : List (List (Entry × Io)))
    (hbs : Allowed (handleBatch listenFd) (BatchLegal listenFd) bs (Server.start listenFd)) :
    ∃ q f, exec (handleBatch listenFd) bs (Server.start listenFd) = some q ∧
      (∀ c, Trace ConnStep .closed (eventsAt c (q.2.filterMap Call.event)) (f c)) ∧
      Shows listenFd q.1 f := by
  obtain ⟨q, f, hq, ht, hs⟩ := simulates_start hbs
  exact ⟨q, f, hq, ht.atKey, hs⟩

/-- The visit goes through every part of the machine. -/
theorem handleBatch_refines_protocol_visit :
    ∃ q f, exec (handleBatch 4) visit (Server.start 4) = some q ∧
      eventsAt 5 (q.2.filterMap Call.event) =
        [.accepted, .received [104, 105], .sent [72, 73], .sent wholeBuffer, .closed] ∧
      (∀ c, Trace ConnStep .closed (eventsAt c (q.2.filterMap Call.event)) (f c)) ∧
      Shows 4 q.1 f := by
  obtain ⟨q, f, hq, ht, hs⟩ := handleBatch_refines_protocol 4 visit visit_legal
  refine ⟨q, f, hq, ?_, ht, hs⟩
  rw [exec_visit hq]
  rfl

/-- **All that is ever written.**  In every run of the server, and for every descriptor, the
payloads of the `write` calls are two for each piece read, the piece in upper case up to its first
zero and 4096 zeros; the last 4096 are still owed while the descriptor is registered under
`EPOLLOUT`. -/
theorem writesOn_eq_replies (listenFd : ℤ) (bs : List (List (Entry × Io)))
    (hbs : Allowed (handleBatch listenFd) (BatchLegal listenFd) bs (Server.start listenFd)) :
    ∃ q, exec (handleBatch listenFd) bs (Server.start listenFd) = some q ∧ ∀ c,
      (writesOn c q.2 ++
          if q.1.kernel.interest c = some (epollOut, c) then [wholeBuffer] else []) =
        (piecesOn c q.2).flatMap fun bytes => [reply bytes, wholeBuffer] := by
  obtain ⟨q, f, hq, ht, hs⟩ := simulates_start hbs
  refine ⟨q, hq, fun c => ?_⟩
  have hsettle := (ht.atKey c).settle fun _ _ _ hstep => ConnStep.settle hstep
  rw [due_eventsAt, paid_eventsAt] at hsettle
  refine Eq.trans ?_ hsettle.symm
  rw [List.append_cancel_left_eq]
  rcases eq_or_ne c listenFd with rfl | hc
  · have hne : epollIn ≠ epollOut := by decide
    rw [hs.listening, hs.listener,
      if_neg fun heq => hne (congrArg Prod.fst (Option.some.inj heq))]
    rfl
  · exact (hs.client c hc).owed.symm

theorem writesOn_eq_replies_visit :
    ∃ q, exec (handleBatch 4) visit (Server.start 4) = some q ∧
      piecesOn 5 q.2 = [[104, 105]] ∧ ∀ c,
      (writesOn c q.2 ++
          if q.1.kernel.interest c = some (epollOut, c) then [wholeBuffer] else []) =
        (piecesOn c q.2).flatMap fun bytes => [reply bytes, wholeBuffer] := by
  obtain ⟨q, hq, hwrites⟩ := writesOn_eq_replies 4 visit visit_legal
  refine ⟨q, hq, ?_, hwrites⟩
  rw [exec_visit hq]
  rfl

/-- **Every descriptor is accounted for.**  In every run of the server, a descriptor other than that
of the listening socket has been accepted as often as it has been closed, and once more if it is
open. -/
theorem accepted_eq_closed_add_isOpen (listenFd : ℤ) (bs : List (List (Entry × Io)))
    (hbs : Allowed (handleBatch listenFd) (BatchLegal listenFd) bs (Server.start listenFd)) :
    ∃ q, exec (handleBatch listenFd) bs (Server.start listenFd) = some q ∧ ∀ c ≠ listenFd,
      q.2.countP (Call.accepts c) = q.2.count (.close c) + (q.1.kernel.isOpen c).toNat := by
  obtain ⟨q, f, hq, ht, hs⟩ := simulates_start hbs
  refine ⟨q, hq, fun c hc => ?_⟩
  have hbalance := (ht.atKey c).balance fun _ _ _ hstep => ConnStep.balance hstep
  rw [(countP_eventsAt q.2).1, (countP_eventsAt q.2).2, (hs.client c hc).live] at hbalance
  have hnone : Phase.closed.live = 0 := rfl
  omega

theorem accepted_eq_closed_add_isOpen_visit :
    ∃ q, exec (handleBatch 4) visit (Server.start 4) = some q ∧ q.2.count (.close 5) = 1 ∧
      ∀ c ≠ 4,
        q.2.countP (Call.accepts c) = q.2.count (.close c) + (q.1.kernel.isOpen c).toNat := by
  obtain ⟨q, hq, hbalance⟩ := accepted_eq_closed_add_isOpen 4 visit visit_legal
  refine ⟨q, hq, ?_, hbalance⟩
  rw [exec_visit hq]
  rfl

/-! ## A client whose registration was refused -/

/-- What is done with other descriptors leaves this one open, or closed. -/
lemma kernelAfter_isOpen_elsewhere (hl : Elsewhere listenFd head c l)
    (ha : head = listenFd → l.2.accept ≠ some c) :
    (kernelAfter listenFd head l k).isOpen c = k.isOpen c := by
  unfold kernelAfter
  by_cases hh : head = listenFd
  · rw [if_pos hh]
    cases hacc : l.2.accept with
    | none => rfl
    | some fd =>
      have hne : c ≠ fd := fun heq => ha hh (hacc.trans (congrArg some heq.symm))
      simp only [Kernel.epollCtl_isOpen, Kernel.opened_isOpen, Function.update_of_ne hne]
  have hfd : c ≠ l.1.fd := (hl.resolve_left hh).symm
  rw [if_neg hh]
  split
  · cases l.2.read with
    | data bytes hpos hle => exact congrFun Kernel.epollCtl_isOpen c
    | eof => simp only [Kernel.close_isOpen, Function.update_of_ne hfd, Kernel.epollCtl_isOpen]
    | error => rfl
  split
  · exact congrFun Kernel.epollCtl_isOpen c
  · rfl

/-- No call is about a client that the entry does not concern. -/
lemma client_ne_of_elsewhere (hl : Elsewhere listenFd head c l)
    (haccept : head = listenFd → l.2.accept ≠ some c) {a : Call}
    (ha : a ∈ answer listenFd head l) : a.client ≠ some c := by
  unfold answer at ha
  by_cases hh : head = listenFd
  · rw [if_pos hh, List.mem_singleton] at ha
    subst ha
    exact haccept hh
  have hfd : l.1.fd ≠ c := hl.resolve_left hh
  rw [if_neg hh] at ha
  split at ha
  · cases hread : l.2.read with
    | data bytes hpos hle =>
      simp only [hread, List.mem_cons, List.not_mem_nil, or_false] at ha
      rcases ha with rfl | rfl | rfl | rfl <;> simp [Call.client, hfd]
    | eof =>
      simp only [hread, List.mem_cons, List.not_mem_nil, or_false] at ha
      rcases ha with rfl | rfl <;> simp [Call.client, hfd]
    | error =>
      simp only [hread, List.mem_singleton] at ha
      simp [ha, Call.client, hfd]
  split at ha
  · simp only [List.mem_cons, List.not_mem_nil, or_false] at ha
    rcases ha with rfl | rfl <;> simp [Call.client, hfd]
  · exact absurd ha List.not_mem_nil

/-- The descriptor is open and not registered. -/
def Unheard (c : ℤ) (s : Server) : Prop :=
  s.kernel.isOpen c = true ∧ s.kernel.interest c = none

/-- **One entry** does not concern a client that is not registered. -/
lemma Unheard.entry (hu : Unheard c s) (ha : Awaited s l) (hp : Promised listenFd head s l) :
    Unheard c { s with kernel := kernelAfter listenFd head l s.kernel } ∧
      ∀ a ∈ answer listenFd head l, a.client ≠ some c := by
  have hne : l.1.fd ≠ c := by
    rintro rfl
    obtain ⟨m, hint, -⟩ := ha
    cases hu.2.symm.trans hint
  have haccept : head = listenFd → l.2.accept ≠ some c := by
    intro hh heq
    cases hu.1.symm.trans (hp.fresh hh c heq)
  refine ⟨⟨?_, ?_⟩, fun a => client_ne_of_elsewhere (Or.inr hne) haccept⟩
  · exact (kernelAfter_isOpen_elsewhere (Or.inr hne) haccept).trans hu.1
  · exact (kernelAfter_interest_elsewhere (Or.inr hne) haccept).trans hu.2

/-- **One batch.** -/
lemma Unheard.batch (hu : Unheard c s) (hs : Shows listenFd s f) (hl : BatchLegal listenFd s es)
    {q : Server × List Call} (hq : handleBatch listenFd es s = some q) :
    Unheard c q.1 ∧ ∀ a ∈ q.2, a.client ≠ some c := by
  obtain ⟨hdistinct, hes⟩ := hs.awaited hl.1
  have hstep : ∀ s l r, s.Blank ∧ Unheard c s → Awaited s l ∧ Promised listenFd (headFd es) s l →
      handleEntry listenFd (headFd es) l s = some r →
      (r.1.Blank ∧ Unheard c r.1) ∧ ∀ a ∈ r.2, a.client ≠ some c := by
    rintro s l r ⟨hblank, hu⟩ ⟨ha, hp⟩ hr
    obtain rfl := Option.some.inj ((handleEntry_blank hblank).symm.trans hr)
    obtain ⟨hu', hcalls⟩ := hu.entry ha hp
    exact ⟨⟨hblank, hu'⟩, hcalls⟩
  obtain ⟨hinv, hcalls⟩ := exec_inv_outputs (fun s => s.Blank ∧ Unheard c s) hstep
    ⟨hs.blank, hu⟩ ((batch_awaited hs.blank hdistinct hes hl.2).and hl.2) hq
  exact ⟨hinv.2, hcalls⟩

/-- **A client whose registration was refused is never closed.**  In every run of the server, from
the time on at which a descriptor is open and not registered, no call is about it, and it stays
open. -/
theorem unheard_forever (listenFd c : ℤ) (bs bs' : List (List (Entry × Io)))
    (hbs : Allowed (handleBatch listenFd) (BatchLegal listenFd) (bs ++ bs')
      (Server.start listenFd)) (q : Server × List Call)
    (hq : exec (handleBatch listenFd) bs (Server.start listenFd) = some q) (hu : Unheard c q.1) :
    ∃ q', exec (handleBatch listenFd) bs' q.1 = some q' ∧ Unheard c q'.1 ∧
      ∀ a ∈ q'.2, a.client ≠ some c := by
  obtain ⟨hfirst, hlast⟩ := hbs.of_append hq
  obtain ⟨q₀, f, hq₀, -, hs⟩ := simulates_start hfirst
  obtain rfl := Option.some.inj (hq₀.symm.trans hq)
  obtain ⟨q', hq', -, -⟩ := exec_handleBatch_blank listenFd bs' hs.blank
  have hstep : ∀ s es r, (∃ f, Shows listenFd s f) ∧ Unheard c s → BatchLegal listenFd s es →
      handleBatch listenFd es s = some r →
      ((∃ f, Shows listenFd r.1 f) ∧ Unheard c r.1) ∧ ∀ a ∈ r.2, a.client ≠ some c := by
    rintro s es r ⟨⟨f, hs⟩, hu⟩ hl hr
    obtain ⟨f', -, hs'⟩ := hs.batch hl hr
    obtain ⟨hu', hcalls⟩ := hu.batch hs hl hr
    exact ⟨⟨⟨f', hs'⟩, hu'⟩, hcalls⟩
  obtain ⟨hinv, hcalls⟩ := exec_inv_outputs (fun s => (∃ f, Shows listenFd s f) ∧ Unheard c s)
    hstep ⟨⟨f, hs⟩, hu⟩ hlast hq'
  exact ⟨q', hq', hinv.2, hcalls⟩

/-- The registration of client 5 is refused; then client 6 comes in. -/
theorem unheard_forever_arrives :
    ∃ q q', exec (handleBatch 4) [[Entry.arrives 4 5 false]] (Server.start 4) = some q ∧
      exec (handleBatch 4) [[Entry.arrives 4 6 true]] q.1 = some q' ∧ Unheard 5 q'.1 ∧
      ∀ a ∈ q'.2, a.client ≠ some 5 := by
  have hstep := @handleBatch_arrives 4 5 (Server.start 4) false
  have hlegal := (shows_start 4).arrives_legal (start_closed (c := 5) (by decide)) false
  obtain ⟨f, -, hs⟩ := (shows_start 4).batch hlegal hstep
  have hrun : exec (handleBatch 4) [[Entry.arrives 4 5 false]] (Server.start 4) = some _ :=
    exec_cons_eq_some.2 ⟨_, _, hstep, exec_nil _, rfl⟩
  have hlegal' : Allowed (handleBatch 4) (BatchLegal 4)
      ([[Entry.arrives 4 5 false]] ++ [[Entry.arrives 4 6 true]]) (Server.start 4) := by
    refine ⟨hlegal, fun r hr => ?_⟩
    obtain rfl := Option.some.inj (hstep.symm.trans hr)
    exact ⟨hs.arrives_legal rfl true, fun _ _ => trivial⟩
  obtain ⟨q', hq', hu, hcalls⟩ := unheard_forever 4 5 [[Entry.arrives 4 5 false]]
    [[Entry.arrives 4 6 true]] hlegal' _ hrun ⟨rfl, rfl⟩
  exact ⟨_, q', hrun, hq', hu, hcalls⟩

end LibeventLearn.EpollDemo
