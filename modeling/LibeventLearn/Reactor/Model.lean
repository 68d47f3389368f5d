import LibeventLearn.Lib.Run
import LibeventLearn.Lib.CMemory
import LibeventLearn.Epoll.Kernel
import Mathlib.Data.Fin.Basic

/-!
# The reactor echo server

The model of `reactor/reactorServer.cpp`: the slot table `g_events`, the functions that change
it, the three callbacks, the idle sweep and the dispatch loop of `main`.  Everything the kernel
and the clock decide is an argument (`Io`); console output is not modelled.
-/

namespace LibeventLearn.Reactor

open Lib Epoll

/-- `MAX_EVENTS`. -/
abbrev maxEvents : ℕ := 1024

/-- `BUFLEN`. -/
abbrev bufLen : ℕ := 128

/-- An index of `g_events`, which is also what a `struct myevent_s *` points to. -/
abbrev Slot := Fin (maxEvents + 1)

/-- The table is not empty, so that there are numerals for its slots. -/
instance (priority := 2000) neZeroSlots : @NeZero ℕ Zero.ofOfNat0 (maxEvents + 1) :=
  ⟨Nat.succ_ne_zero maxEvents⟩

/-- The last slot, the one of the listening socket. -/
abbrev listener : Slot := Fin.last maxEvents

/-- The functions `call_back` may point to. -/
inductive Callback where
  | null
  | recvdata
  | senddata
  | acceptconn
deriving DecidableEq, Repr

/-- `struct myevent_s`. -/
@[ext] structure MyEvent where
  fd : ℤ
  events : Mask
  /-- A pointer to the structure itself, or `NULL`. -/
  arg : Option Slot
  callBack : Callback
  /-- 1: being monitored, 0: absent. -/
  status : ℤ
  buf : Vector UInt8 bufLen
  len : ℤ
  lastActive : ℤ

/-- A slot of static storage before its first use. -/
def MyEvent.zero : MyEvent where
  fd := 0
  events := 0
  arg := none
  callBack := .null
  status := 0
  buf := Vector.replicate bufLen 0
  len := 0
  lastActive := 0

/-- What a function that works on slot `p` keeps: a slot with a callback points to itself. -/
def KeepsArg (p : Slot) (f : MyEvent → MyEvent) : Prop :=
  ∀ ev : MyEvent, (ev.callBack ≠ .null → ev.arg = some p) →
    (f ev).callBack ≠ .null → (f ev).arg = some p

/-- `g_events`.  Every slot that has a callback points to itself. -/
@[ext] structure SlotTable where
  slot : Slot → MyEvent
  arg_own : ∀ p, (slot p).callBack ≠ .null → (slot p).arg = some p

/-- A change of one slot. -/
def SlotTable.modify (t : SlotTable) (p : Slot) (f : MyEvent → MyEvent) (hf : KeepsArg p f) :
    SlotTable where
  slot := Function.update t.slot p (f (t.slot p))
  arg_own q hq := by
    by_cases h : q = p
    · subst h
      rw [Function.update_self] at hq ⊢
      exact hf _ (t.arg_own q) hq
    · rw [Function.update_of_ne h] at hq ⊢
      exact t.arg_own q hq

/-- The slots and the kernel. -/
@[ext] structure World where
  gEvents : SlotTable
  kernel : Kernel Slot

/-- The slot `p` of `g_events`. -/
abbrev World.slot (w : World) (p : Slot) : MyEvent := w.gEvents.slot p

/-- A change of one slot that leaves the kernel alone. -/
def World.modify (w : World) (p : Slot) (f : MyEvent → MyEvent)
    (hf : KeepsArg p f) : World :=
  { w with gEvents := w.gEvents.modify p f hf }

/-- A change of the kernel that leaves the slots alone. -/
def World.setKernel (w : World) (k : Kernel Slot) : World := { w with kernel := k }

/-- What `recv(fd, ev->buf, sizeof(ev->buf), 0)` answers. -/
abbrev RecvResult := ReadResult bufLen

/-- What the environment decides while one callback runs. -/
structure Io where
  /-- The result of `recv(fd, ..)`. -/
  recv : ℤ → RecvResult
  /-- The result of `send(fd, ..)`. -/
  send : ℤ → ℤ
  /-- Whether the kernel grants an `epoll_ctl` call that is in order. -/
  ctl : CtlOp → ℤ → Bool
  /-- The result of `accept`: a descriptor, or failure. -/
  accept : Option ℤ
  /-- The result of `fcntl(cfd, F_SETFL, O_NONBLOCK)`. -/
  fcntl : ℤ
  /-- What the uninitialised local `i` of `acceptconn` holds. -/
  uninit : ℤ
  /-- The clock, `time(NULL)`. -/
  time : ℤ

/-- What the server does that the outside sees, or that touches a descriptor. -/
inductive Act where
  /-- `call_back` of a slot is run on a descriptor, which is open or not. -/
  | callback (p : Slot) (cb : Callback) (fd : ℤ) (isOpen : Bool)
  /-- `recv` returned these bytes. -/
  | recv (p : Slot) (fd : ℤ) (bytes : List UInt8)
  /-- `send` accepted these bytes. -/
  | send (p : Slot) (fd : ℤ) (bytes : List UInt8)
  /-- `close` of the descriptor in a slot, which is open or not. -/
  | close (p : Slot) (fd : ℤ) (isOpen : Bool)
  /-- `accept` returned this descriptor. -/
  | accept (fd : ℤ)
deriving DecidableEq

/-! ## Slots -/

/-- `event_set`.  The clock is stored in an `int`. -/
def eventSet (fd : ℤ) (callBack : Callback) (arg : Slot) (time : ℤ) (ev : MyEvent) : MyEvent :=
  { ev with
    fd := fd
    callBack := callBack
    arg := some arg
    status := 0
    lastActive := toInt32 time
    events := 0 }

lemma keepsArg_eventSet {p : Slot} {fd : ℤ} {cb : Callback} {time : ℤ} :
    KeepsArg p (eventSet fd cb p time) := fun _ _ _ => rfl

/-- The slot after `recv` has put `bytes` at the front of `buf`. -/
def MyEvent.fill (bytes : List UInt8) (h : bytes.length ≤ bufLen) (ev : MyEvent) : MyEvent :=
  { ev with buf := blit ev.buf 0 bytes (by omega) }

/-- `ev->len = n; ev->buf[n] = '\0'`.  The byte after `buf` is the lowest byte of `len`. -/
def MyEvent.terminate (n : ℕ) (_h : n ≤ bufLen) (ev : MyEvent) : MyEvent :=
  if h : n < bufLen then { ev with len := n, buf := ev.buf.set n 0 h }
  else { ev with len := (n : ℤ) - (n : ℤ) % 256 }

lemma keepsArg_terminate {p : Slot} {n : ℕ} {h : n ≤ bufLen} :
    KeepsArg p (MyEvent.terminate n h) := by
  intro ev hev
  simp only [MyEvent.terminate]
  split <;> exact hev

lemma keepsArg_fill {p : Slot} {bytes : List UInt8} {h : bytes.length ≤ bufLen} :
    KeepsArg p (MyEvent.fill bytes h) := fun _ hev => hev

/-- `ev->events = events; ev->status = 1`. -/
def MyEvent.monitor (events : Mask) (ev : MyEvent) : MyEvent :=
  { ev with events := events, status := 1 }

lemma keepsArg_monitor {p : Slot} {events : Mask} : KeepsArg p (MyEvent.monitor events) :=
  fun _ hev => hev

/-- `ev->status = 0`. -/
def MyEvent.absent (ev : MyEvent) : MyEvent := { ev with status := 0 }

lemma keepsArg_absent {p : Slot} : KeepsArg p MyEvent.absent := fun _ hev => hev

/-- `event_add`. -/
def eventAdd (io : Io) (events : Mask) (p : Slot) (w : World) : World :=
  let ev := w.slot p
  let op : CtlOp := if ev.status = 1 then .mod else .add
  -- on the `EPOLL_CTL_MOD` path the status is 1 already; a failure is only printed
  (w.modify p (MyEvent.monitor events) keepsArg_monitor).setKernel
    (w.kernel.epollCtl (io.ctl op ev.fd) op ev.fd (events, p)).2

/-- `event_del`. -/
def eventDel (io : Io) (p : Slot) (w : World) : World :=
  let ev := w.slot p
  if ev.status ≠ 1 then w
  else
    (w.modify p MyEvent.absent keepsArg_absent).setKernel
      (w.kernel.epollCtl (io.ctl .del ev.fd) .del ev.fd (0, p)).2

/-- `close(ev->fd)`. -/
def closeSlot (p : Slot) (w : World) : World × List Act :=
  let fd := (w.slot p).fd
  (w.setKernel (w.kernel.close fd), [.close p fd (w.kernel.isOpen fd)])

/-! ## Callbacks -/

/-- `recvdata`. -/
def recvdata (io : Io) (fd : ℤ) (_events : Mask) (arg : Slot) (w : World) : World × List Act :=
  match io.recv fd with
  | .data bytes _ hle =>
    let w := w.modify arg (MyEvent.fill bytes hle) keepsArg_fill
    let w := eventDel io arg w
    let w := w.modify arg (MyEvent.terminate bytes.length hle) keepsArg_terminate
    let w := w.modify arg (eventSet fd .senddata arg io.time) keepsArg_eventSet
    (eventAdd io epollOut arg w, [.recv arg fd bytes])
  | .eof => closeSlot arg (eventDel io arg w)
  | .error => closeSlot arg (eventDel io arg w)

/-- The bytes `senddata` hands to `send`. -/
def MyEvent.outgoing (ev : MyEvent) : List UInt8 := ev.buf.toList.take ev.len.toNat

/-- `senddata`. -/
def senddata (io : Io) (fd : ℤ) (_events : Mask) (arg : Slot) (w : World) : World × List Act :=
  let len := io.send fd
  let sent := (w.slot arg).outgoing.take len.toNat
  let w := eventDel io arg w
  if 0 < len then
    let w := w.modify arg (eventSet fd .recvdata arg io.time) keepsArg_eventSet
    (eventAdd io epollIn arg w, [.send arg fd sent])
  else closeSlot arg w

/-- The inner search loop of `acceptconn`: the first client slot from `i` on with status 0. -/
def scanFree (t : SlotTable) (i : ℕ) : ℕ :=
  if h : i < maxEvents then
    if (t.slot ⟨i, by omega⟩).status = 0 then i else scanFree t (i + 1)
  else i
termination_by maxEvents - i

/-- `&g_events[i]`, if there is such an element. -/
def slotAt (i : ℤ) : Option Slot :=
  if h : 0 ≤ i ∧ i ≤ maxEvents then some ⟨i.toNat, by omega⟩ else none

/-- `acceptconn`. -/
def acceptconn (io : Io) (_lfd : ℤ) (_events : Mask) (_arg : Slot) (w : World) :
    Option (World × List Act) :=
  match io.accept with
  | none => some (w, [])
  | some cfd =>
    let w := w.setKernel (w.kernel.opened cfd)
    -- the `i` of the search loop is declared by the loop and ends with it ..
    let _i := scanFree w.gEvents 0
    -- .. so this is the one of the function, which nothing has assigned
    let i := io.uninit
    -- the last line of the function reads `g_events[i]`, also after a `break`
    if i = maxEvents then (slotAt i).map fun _ => (w, [.accept cfd])
    else if io.fcntl < 0 then (slotAt i).map fun _ => (w, [.accept cfd])
    else (slotAt i).map fun p =>
      let w := w.modify p (eventSet cfd .recvdata p io.time) keepsArg_eventSet
      (eventAdd io epollIn p w, [.accept cfd])

/-- `call_back(fd, events, arg)`: undefined through a null pointer. -/
def invoke (io : Io) (cb : Callback) (fd : ℤ) (events : Mask) (arg : Option Slot) (w : World) :
    Option (World × List Act) :=
  match cb, arg with
  | .recvdata, some p => some (recvdata io fd events p w)
  | .senddata, some p => some (senddata io fd events p w)
  | .acceptconn, some p => acceptconn io fd events p w
  | _, _ => none

/-! ## The main loop -/

/-- An element of the array `epoll_wait` fills. -/
structure EpollEvent where
  events : Mask
  ptr : Slot

/-- One of the two tests of the dispatch loop, for `EPOLLIN` or `EPOLLOUT`: the callback of the
slot is run if the bit is reported and the slot asks for it. -/
def callIf (m : Mask) (io : Io) (e : EpollEvent) (w : World) : Option (World × List Act) :=
  let ev := w.slot e.ptr
  if e.events.has m ∧ ev.events.has m then
    (invoke io ev.callBack ev.fd e.events ev.arg w).map fun r =>
      (r.1, .callback e.ptr ev.callBack ev.fd (w.kernel.isOpen ev.fd) :: r.2)
  else some (w, [])

/-- The body of the dispatch loop. -/
def dispatch (l : EpollEvent × Io) (w : World) : Option (World × List Act) :=
  (callIf epollIn l.2 l.1 w).bind fun r =>
    (callIf epollOut l.2 l.1 r.1).map fun q => (q.1, r.2 ++ q.2)

/-- The dispatch loop over what `epoll_wait` returned. -/
def dispatchAll : List (EpollEvent × Io) → World → Option (World × List Act) := exec dispatch

/-- The body of the idle sweep for one slot, `now` being the clock read before the sweep. -/
def sweepSlot (io : Io) (now : ℤ) (p : Slot) (w : World) : World × List Act :=
  if (w.slot p).status ≠ 1 then (w, [])
  else if 60 ≤ now - (w.slot p).lastActive then
    let r := closeSlot p w
    (eventDel io p r.1, r.2)
  else (w, [])

/-- `if (checkpos == MAX_EVENTS) checkpos = 0`. -/
def wrapPos (checkpos : Slot) : Fin maxEvents :=
  if h : checkpos.val = maxEvents then ⟨0, by decide⟩
  else ⟨checkpos.val, by have := checkpos.isLt; omega⟩

/-- `n` rounds of the idle sweep from `checkpos`. -/
def sweep (io : Io) (now : ℤ) : ℕ → Slot → World → (World × Slot) × List Act
  | 0, checkpos, w => ((w, checkpos), [])
  | n + 1, checkpos, w =>
    let p := wrapPos checkpos
    let r := sweepSlot io now p.castSucc w
    let q := sweep io now n p.succ r.1
    (q.1, r.2 ++ q.2)

/-- What the body of `while (1)` does in one go: the sweep of 100 slots, or the dispatch of
what `epoll_wait` returned. -/
inductive LoopStep where
  | sweep (now : ℤ) (io : Io)
  | batch (es : List (EpollEvent × Io))

/-- The main loop; the state is the world and `checkpos`. -/
def loopStep : LoopStep → World × Slot → Option ((World × Slot) × List Act)
  | .sweep now io, s => some (sweep io now 100 s.2 s.1)
  | .batch es, s => (dispatchAll es s.1).map fun r => ((r.1, s.2), r.2)

/-- The world before `main`. -/
def World.initial : World where
  gEvents := ⟨fun _ => MyEvent.zero, fun _ h => absurd rfl h⟩
  kernel := Kernel.empty

/-- `initlistensocket`, `socket` having returned `lfd`. -/
def initlistensocket (io : Io) (lfd : ℤ) (w : World) : World :=
  let w := w.setKernel (w.kernel.opened lfd)
  let w := w.modify listener (eventSet lfd .acceptconn listener io.time) keepsArg_eventSet
  eventAdd io epollIn listener w

/-- An environment in which no data moves, and the kernel grants what it is asked for, or
refuses it. -/
def Io.still (granted : Bool) : Io where
  recv _ := .eof
  send _ := -1
  ctl _ _ := granted
  accept := none
  fcntl := 0
  uninit := 0
  time := 0

/-- The world after `accept` returned 5 and `event_set` put it into slot 0. -/
def World.pending : World :=
  (World.initial.setKernel (Kernel.empty.opened 5)).modify 0 (eventSet 5 .recvdata 0 0)
    keepsArg_eventSet

/-- Descriptor 5 is connected in slot 0. -/
def World.connected : World := eventAdd (Io.still true) epollIn 0 World.pending

end LibeventLearn.Reactor
