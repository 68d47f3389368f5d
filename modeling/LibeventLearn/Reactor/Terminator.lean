import LibeventLearn.Reactor.Echo
import LibeventLearn.Reactor.Accept
import LibeventLearn.Reactor.Dispatch

/-!
# The terminator of the buffer

`recvdata` lets `recv` fill the whole of `buf` and then stores a terminator behind the last byte.
Of a chunk that fills the buffer the terminator lands in `len`, the next field, and what
`senddata` and its prints find there and in the buffer is wrong.  They find what they should
exactly as long as no chunk fills the buffer.
-/

namespace LibeventLearn.Reactor

open Lib Epoll

variable {io : Io} {p q : Slot} {w w' : World} {bytes : List UInt8} {ev : MyEvent} {n : ℕ}
  {s : World × List Act} {l : Turn × Io} {r : (World × List Act) × List Act}

/-- The terminator is stored inside of `buf`, and `len` is the length: no other field and no other
byte of `buf` changes. -/
structure TerminatorRight (n : ℕ) (ev ev' : MyEvent) : Prop where
  nul : ev'.buf.toList[n]? = some 0
  buf : ∀ i ≠ n, ev'.buf.toList[i]? = ev.buf.toList[i]?
  len : ev'.len = n
  rest : ev' = { ev with buf := ev'.buf, len := ev'.len }

/-- The bytes `recv` returned last for the slot. -/
def lastRecv (p : Slot) (h : List Act) : Option (List UInt8) :=
  (h.filterMap fun a => match a with
    | .recv q _ bytes => if q = p then some bytes else none
    | _ => none).getLast?

/-- What `senddata` relies on in its slot, `bytes` being what was received: `len` is the number of
these bytes, they end at a terminator in `buf`, and `%s` prints no more than `buf`. -/
structure Terminated (bytes : List UInt8) (ev : MyEvent) : Prop where
  len : ev.len = bytes.length
  nul : ev.buf.toList[bytes.length]? = some 0
  print : cString ev.buf ≠ none

/-- Every slot whose callback is `senddata` is as it relies on. -/
def SendReady (s : World × List Act) : Prop :=
  ∀ p, (s.1.slot p).callBack = .senddata →
    ∃ bytes, lastRecv p s.2 = some bytes ∧ Terminated bytes (s.1.slot p)

/-- A `recvdata` receives less than a full buffer. -/
def RecvShort (s : World × List Act) (l : Turn × Io) : Prop :=
  ∀ q, l.1 = .callback q → (s.1.slot q).callBack = .recvdata →
    (l.2.recv (s.1.slot q).fd).bytes.length < bufLen

lemma terminatorRight_iff (h : n ≤ bufLen) :
    TerminatorRight n ev (ev.terminate n h) ↔ n < bufLen := by
  constructor
  · rintro ⟨hnul, -⟩
    obtain ⟨hlt, -⟩ := List.getElem?_eq_some_iff.1 hnul
    rwa [Vector.length_toList] at hlt
  · intro hlt
    rw [MyEvent.terminate, dif_pos hlt]
    refine ⟨?_, fun i hi => ?_, rfl, rfl⟩
    · rw [Vector.toList_set, List.getElem?_set_self (by rwa [Vector.length_toList])]
    · rw [Vector.toList_set, List.getElem?_set_ne hi.symm]

/-! ## The record -/

lemma lastRecv_append (h h' : List Act) :
    lastRecv p (h ++ h') = (lastRecv p h').or (lastRecv p h) := by
  rw [lastRecv, List.filterMap_append, List.getLast?_append]
  rfl

@[simp] lemma lastRecv_recv {fd : ℤ} :
    lastRecv p [.recv q fd bytes] = if q = p then some bytes else none := by
  by_cases h : q = p <;> simp [lastRecv, h]

@[simp] lemma lastRecv_send {fd : ℤ} : lastRecv p [.send q fd bytes] = none := rfl

@[simp] lemma lastRecv_close {fd : ℤ} {o : Bool} : lastRecv p [.close q fd o] = none := rfl

/-! ## The buffer -/

/-- A slot that has received less than a full buffer. -/
lemma terminated_received (ev : MyEvent) (hle : bytes.length ≤ bufLen)
    (hlt : bytes.length < bufLen) : Terminated bytes (received bytes hle ev) := by
  have hlen : (received bytes hle ev).len = bytes.length := (received_of_lt hlt).1
  have hbuf : (received bytes hle ev).buf.toList =
      bytes ++ 0 :: ev.buf.toList.drop (bytes.length + 1) := by
    simp only [received, MyEvent.terminate, dif_pos hlt, MyEvent.fill, Vector.toList_set,
      toList_blit, List.take_zero, List.nil_append, Nat.zero_add]
    have hcell : bytes.length < ev.buf.toList.length := by rwa [Vector.length_toList]
    rw [List.set_append_right _ _ le_rfl, Nat.sub_self, List.drop_eq_getElem_cons hcell,
      List.set_cons_zero]
  refine ⟨hlen, ?_, ?_⟩
  · rw [hbuf]
    simp
  · rw [cString, hbuf, strlen_append_zero]
    exact Option.some_ne_none _

lemma terminated_received_iff (ev : MyEvent) (hle : bytes.length ≤ bufLen) :
    Terminated bytes (received bytes hle ev) ↔ bytes.length < bufLen := by
  refine ⟨fun h => ?_, terminated_received ev hle⟩
  obtain ⟨hlt, -⟩ := List.getElem?_eq_some_iff.1 h.nul
  rwa [Vector.length_toList] at hlt

/-! ## One turn -/

/-- A turn as seen from the slot `p`: either `recv` has put bytes into it, or nothing has been
received for it, and if its callback is `senddata` it has the buffer it had. -/
inductive SlotCase (p : Slot) (w : World) (l : Turn × Io) (r : World × List Act) : Prop
  | received (bytes : List UInt8) (hpos : 0 < bytes.length) (hle : bytes.length ≤ bufLen)
      (hcall : l.1 = .callback p) (hcb : (w.slot p).callBack = .recvdata)
      (hrecv : l.2.recv (w.slot p).fd = .data bytes hpos hle)
      (hlast : lastRecv p r.2 = some bytes) (hsend : (r.1.slot p).callBack = .senddata)
      (hbuf : (r.1.slot p).buf = (received bytes hle (w.slot p)).buf)
      (hlen : (r.1.slot p).len = (received bytes hle (w.slot p)).len)
  | kept (hlast : lastRecv p r.2 = none)
      (hkept : (r.1.slot p).callBack = .senddata → (w.slot p).callBack = .senddata ∧
        (r.1.slot p).buf = (w.slot p).buf ∧ (r.1.slot p).len = (w.slot p).len)

/-- A slot that is not touched. -/
lemma SlotCase.of_eq {l : Turn × Io} {r : World × List Act} (hlast : lastRecv p r.2 = none)
    (h : r.1.slot p = w.slot p) : SlotCase p w l r :=
  .kept hlast fun hs => by rw [h] at hs ⊢; exact ⟨hs, rfl, rfl⟩

/-- A slot whose connection is closed. -/
lemma SlotCase.of_dropped {l : Turn × Io} {r : World × List Act} (h : Dropped q w r.1)
    (hlast : lastRecv p r.2 = none) : SlotCase p w l r := by
  by_cases hpq : p = q
  · subst hpq
    refine .kept hlast fun hs => ?_
    rw [h.slot_self] at hs ⊢
    exact ⟨hs, rfl, rfl⟩
  · exact .of_eq hlast (h.slot_of_ne p hpq)

lemma SlotCase.of_callback {r : World × List Act} (h : CallbackCase q io w r) :
    SlotCase p w (.callback q, io) r := by
  rcases h with ⟨bytes, hpos, hle, hcb, hrecv, hslot, hact⟩ | ⟨_, _, hslot, hact⟩ |
    ⟨_, hslot, hact⟩
  · by_cases hpq : p = q
    · subst hpq
      refine .received bytes hpos hle rfl hcb hrecv (by rw [hact]; simp) ?_ ?_ ?_
      all_goals
        rw [hslot.slot_self]
        rfl
    · exact .of_eq (by rw [hact, lastRecv_recv, if_neg (Ne.symm hpq)]) (hslot.slot_of_ne p hpq)
  · by_cases hpq : p = q
    · subst hpq
      refine .kept (by rw [hact, lastRecv_send]) fun hs => ?_
      rw [hslot.slot_self] at hs
      cases hs
    · exact .of_eq (by rw [hact, lastRecv_send]) (hslot.slot_of_ne p hpq)
  · exact .of_dropped hslot (by rw [hact, lastRecv_close])

lemma SlotCase.of_accept {lfd : ℤ} {m : Mask} {r : World × List Act}
    (h : acceptconn io lfd m q w = some r) : SlotCase p w l r := by
  have hstep : acceptStep io w = some r := h
  cases hacc : io.accept with
  | none =>
    rw [acceptStep_none hacc] at hstep
    obtain rfl := Option.some.inj hstep
    exact .of_eq rfl rfl
  | some cfd =>
    rcases index_cases io.uninit with ⟨q', hq', hi⟩ | hi | hi
    · by_cases hf : 0 ≤ io.fcntl
      · obtain ⟨w', hw', hfill⟩ := acceptStep_fill w hacc hi hq' hf
        obtain rfl := Option.some.inj (hw'.symm.trans hstep)
        by_cases hpq : p = q'
        · subst hpq
          refine .kept rfl fun hs => ?_
          rw [hfill.slot_self] at hs
          cases hs
        · exact .of_eq rfl (hfill.slot_of_ne p hpq)
      · rw [acceptStep_keep hacc hi (Or.inr (not_le.1 hf))] at hstep
        obtain rfl := Option.some.inj hstep
        exact .of_eq rfl rfl
    · rw [acceptStep_keep hacc hi (Or.inl rfl)] at hstep
      obtain rfl := Option.some.inj hstep
      exact .of_eq rfl rfl
    · rw [acceptStep_outside hacc hi] at hstep
      cases hstep

/-- What any turn does, as seen from any slot. -/
lemma turn_slotCase {r : World × List Act} (p : Slot) (h : turnStep l w = some r) :
    SlotCase p w l r := by
  obtain ⟨turn, io⟩ := l
  cases turn with
  | callback q =>
    cases hcb : (w.slot q).callBack with
    | null =>
      simp only [turnStep, hcb, invoke] at h
      cases h
    | recvdata =>
      obtain ⟨r', hr', hcase⟩ := invoke_cases io (w.slot q).events (Or.inl hcb)
      obtain rfl := Option.some.inj (hr'.symm.trans h)
      exact .of_callback hcase
    | senddata =>
      obtain ⟨r', hr', hcase⟩ := invoke_cases io (w.slot q).events (Or.inr hcb)
      obtain rfl := Option.some.inj (hr'.symm.trans h)
      exact .of_callback hcase
    | acceptconn =>
      have harg : (w.slot q).arg = some q := w.gEvents.arg_own q (by rw [hcb]; decide)
      simp only [turnStep, hcb, harg, invoke] at h
      exact .of_accept h
  | timeout q now =>
    obtain rfl := Option.some.inj h
    by_cases hidle : Idle now (w.slot q)
    · obtain ⟨hslot, hact⟩ := sweepSlot_idle io hidle
      exact .of_dropped hslot (by rw [hact, lastRecv_close])
    · rw [sweepSlot_not_idle hidle]
      exact .of_eq rfl rfl

/-! ## Runs -/

lemma Terminated.congr {ev' : MyEvent} (h : Terminated bytes ev) (hbuf : ev'.buf = ev.buf)
    (hlen : ev'.len = ev.len) : Terminated bytes ev' :=
  ⟨hlen.trans h.len, hbuf ▸ h.nul, hbuf ▸ h.print⟩

/-- A turn that receives less than a full buffer leaves the slots as `senddata` relies on. -/
lemma SendReady.turn {r : World × List Act} (h : SendReady s) (hr : turnStep l s.1 = some r)
    (hshort : ∀ p bytes, lastRecv p r.2 = some bytes → bytes.length < bufLen) :
    SendReady (r.1, s.2 ++ r.2) := by
  intro p hp
  rcases turn_slotCase p hr with ⟨bytes, _, hle, _, _, _, hlast, -, hbuf, hlen⟩ | ⟨hlast, hkept⟩
  · have hterm := terminated_received (s.1.slot p) hle (hshort p bytes hlast)
    refine ⟨bytes, ?_, hterm.congr hbuf hlen⟩
    rw [lastRecv_append, hlast, Option.some_or]
  · obtain ⟨hp', hbuf, hlen⟩ := hkept hp
    obtain ⟨bytes, hbytes, hterm⟩ := h p hp'
    refine ⟨bytes, ?_, hterm.congr hbuf hlen⟩
    rw [lastRecv_append, hlast, Option.none_or, hbytes]

lemma SendReady.step (h : SendReady s) (hshort : RecvShort s l)
    (hr : recorded turnStep l s = some r) : SendReady r.1 := by
  obtain ⟨r', hr', rfl⟩ := Option.map_eq_some_iff.1 hr
  refine h.turn hr' fun p bytes hbytes => ?_
  rcases turn_slotCase p hr' with ⟨bytes', _, _, hcall, hcb, hrecv, hlast, _⟩ | ⟨hlast, -⟩
  · obtain rfl := Option.some.inj (hlast.symm.trans hbytes)
    have hlt := hshort p hcall hcb
    rwa [hrecv, ReadResult.bytes] at hlt
  · cases hlast.symm.trans hbytes

/-- The bytes received last are those of one `recv`. -/
lemma mem_of_lastRecv {h : List Act} (hlast : lastRecv p h = some bytes) :
    ∃ fd, .recv p fd bytes ∈ h := by
  have hmem := List.mem_of_getLast? hlast
  obtain ⟨a, ha, heq⟩ := List.mem_filterMap.1 hmem
  cases a with
  | recv q fd bytes' =>
    obtain ⟨rfl, rfl⟩ : q = p ∧ bytes' = bytes := by simpa using heq
    exact ⟨fd, ha⟩
  | callback => cases heq
  | send => cases heq
  | close => cases heq
  | accept => cases heq

/-- A run of turns in which every `recv` returns less than a full buffer. -/
lemma SendReady.turns {ls : List (Turn × Io)} {q : World × List Act} (h : SendReady s)
    (hq : exec turnStep ls s.1 = some q)
    (hshort : ∀ p fd bytes, .recv p fd bytes ∈ q.2 → bytes.length < bufLen) :
    SendReady (q.1, s.2 ++ q.2) := by
  induction ls generalizing s q with
  | nil =>
    obtain rfl := Option.some.inj hq
    rwa [List.append_nil]
  | cons l ls ih =>
    obtain ⟨r, r', hr, hr', rfl⟩ := exec_cons_eq_some.1 hq
    have hturn : SendReady (r.1, s.2 ++ r.2) := by
      refine h.turn hr fun p bytes hlast => ?_
      obtain ⟨fd, hmem⟩ := mem_of_lastRecv hlast
      exact hshort p fd bytes (List.mem_append_left _ hmem)
    have hrest := ih hturn hr' fun p fd bytes hmem =>
      hshort p fd bytes (List.mem_append_right _ hmem)
    rwa [List.append_assoc] at hrest

/-- A turn that receives a full buffer does not. -/
lemma SendReady.recvShort (h : ∀ r, recorded turnStep l s = some r → SendReady r.1) :
    RecvShort s l := by
  obtain ⟨turn, io⟩ := l
  rintro q rfl hcb
  cases hrecv : io.recv (s.1.slot q).fd with
  | eof => exact Nat.zero_lt_succ _
  | error => exact Nat.zero_lt_succ _
  | data bytes hpos hle =>
    obtain ⟨r, hr, hcase⟩ := invoke_cases io (s.1.slot q).events (Or.inl hcb)
    have hready := h _ (recorded_of_eq (s := s) (l := (Turn.callback q, io)) hr)
    rcases hcase with ⟨bytes', _, hle', -, hrecv', hslot, hact⟩ | ⟨hcb', -⟩ | ⟨hcause, -⟩
    · injection hrecv.symm.trans hrecv' with heq
      subst heq
      obtain ⟨bytes', hbytes, hterm⟩ := hready q (by rw [hslot.slot_self]; rfl)
      rw [lastRecv_append, hact, lastRecv_recv, if_pos rfl, Option.some_or] at hbytes
      obtain rfl := Option.some.inj hbytes
      refine (terminated_received_iff (s.1.slot q) hle).1 (hterm.congr ?_ ?_)
      all_goals
        rw [hslot.slot_self]
        rfl
    · cases hcb.symm.trans hcb'
    · rw [hcb, hrecv] at hcause
      rcases hcause with ⟨-, heq | heq⟩ | ⟨heq, -⟩
      all_goals cases heq

/-- No callback is `senddata` before something has been received. -/
lemma sendReady_start (io : Io) (lfd : ℤ) :
    SendReady (initlistensocket io lfd World.initial, []) := by
  intro p hp
  have hslot : ((initlistensocket io lfd World.initial).slot p).callBack = .senddata := hp
  by_cases hl : p = listener
  · subst hl
    rw [initlistensocket, eventAdd_slot_self, modify_slot_self] at hslot
    cases hslot
  · rw [initlistensocket, eventAdd_slot_of_ne hl, modify_slot_of_ne hl] at hslot
    cases hslot

/-! ## The turns of the main loop -/

/-- The world after some turns, which have done `acts`. -/
def TurnsTo (w : World) (acts : List Act) (w' : World) : Prop :=
  ∃ ls, exec turnStep ls w = some (w', acts)

lemma TurnsTo.refl (w : World) : TurnsTo w [] w := ⟨[], rfl⟩

lemma TurnsTo.trans {w₁ w₂ w₃ : World} {acts acts' : List Act} (h : TurnsTo w₁ acts w₂)
    (h' : TurnsTo w₂ acts' w₃) : TurnsTo w₁ (acts ++ acts') w₃ := by
  obtain ⟨ls, hls⟩ := h
  obtain ⟨ls', hls'⟩ := h'
  exact ⟨ls ++ ls', by rw [exec_append, hls, Option.bind_some, hls', Option.map_some]⟩

lemma TurnsTo.of_turn {r : World × List Act} (h : turnStep l w = some r) :
    TurnsTo w r.2 r.1 := by
  refine ⟨[l], ?_⟩
  rw [exec_cons, h, Option.bind_some, exec_nil, Option.map_some, List.append_nil]

/-- The actions without the notes that a callback is run. -/
def plain (acts : List Act) : List Act := acts.filter fun a => !a.isCallback

@[simp] lemma plain_append (acts acts' : List Act) :
    plain (acts ++ acts') = plain acts ++ plain acts' := List.filter_append ..

lemma acceptconn_acts {lfd : ℤ} {m : Mask} {r : World × List Act}
    (h : acceptconn io lfd m p w = some r) : r.2 = [] ∨ ∃ cfd, r.2 = [.accept cfd] := by
  simp only [acceptconn] at h
  split at h
  · obtain rfl := Option.some.inj h
    exact Or.inl rfl
  · rename_i cfd _
    refine Or.inr ⟨cfd, ?_⟩
    split at h
    · obtain ⟨_, -, rfl⟩ := Option.map_eq_some_iff.1 h
      rfl
    · split at h
      · obtain ⟨_, -, rfl⟩ := Option.map_eq_some_iff.1 h
        rfl
      · obtain ⟨_, -, rfl⟩ := Option.map_eq_some_iff.1 h
        rfl

/-- Callbacks do not look at the events they are called with, and run no callbacks. -/
lemma invoke_eq {cb : Callback} {fd : ℤ} {m : Mask} {arg : Option Slot} {r : World × List Act}
    (h : invoke io cb fd m arg w = some r) (m' : Mask) :
    invoke io cb fd m' arg w = some r ∧ plain r.2 = r.2 := by
  cases cb with
  | null => cases h
  | recvdata =>
    cases arg with
    | none => cases h
    | some p =>
      refine ⟨h, ?_⟩
      obtain rfl := Option.some.inj h
      rw [recvdata]
      split <;> rfl
  | senddata =>
    cases arg with
    | none => cases h
    | some p =>
      refine ⟨h, ?_⟩
      obtain rfl := Option.some.inj h
      simp only [senddata]
      split <;> rfl
  | acceptconn =>
    cases arg with
    | none => cases h
    | some p =>
      refine ⟨h, ?_⟩
      have hacc : acceptconn io fd m p w = some r := h
      rcases acceptconn_acts hacc with hr | ⟨cfd, hr⟩
      · rw [hr]
        rfl
      · rw [hr]
        rfl

lemma TurnsTo.of_callIf {m : Mask} {e : EpollEvent} {r : World × List Act}
    (h : callIf m io e w = some r) : TurnsTo w (plain r.2) r.1 := by
  simp only [callIf] at h
  split at h
  · obtain ⟨r', hr', rfl⟩ := Option.map_eq_some_iff.1 h
    obtain ⟨hr, hplain⟩ := invoke_eq hr' (w.slot e.ptr).events
    have hturn : turnStep (.callback e.ptr, io) w = some r' := hr
    have hto := TurnsTo.of_turn hturn
    rw [← hplain] at hto
    exact hto
  · obtain rfl := Option.some.inj h
    exact .refl w

lemma TurnsTo.of_dispatch {l : EpollEvent × Io} {r : World × List Act}
    (h : dispatch l w = some r) : TurnsTo w (plain r.2) r.1 := by
  obtain ⟨r₁, h₁, h⟩ := Option.bind_eq_some_iff.1 h
  obtain ⟨r₂, h₂, rfl⟩ := Option.map_eq_some_iff.1 h
  rw [plain_append]
  exact (of_callIf h₁).trans (of_callIf h₂)

lemma TurnsTo.of_dispatchAll {es : List (EpollEvent × Io)} {r : World × List Act}
    (h : dispatchAll es w = some r) : TurnsTo w (plain r.2) r.1 := by
  induction es generalizing w r with
  | nil =>
    obtain rfl := Option.some.inj h
    exact .refl w
  | cons e es ih =>
    obtain ⟨r₁, r₂, h₁, h₂, rfl⟩ := exec_cons_eq_some.1 h
    rw [plain_append]
    exact (of_dispatch h₁).trans (ih h₂)

lemma TurnsTo.of_sweep (io : Io) (now : ℤ) (n : ℕ) (checkpos : Slot) (w : World) :
    TurnsTo w (plain (sweep io now n checkpos w).2) (sweep io now n checkpos w).1.1 := by
  induction n generalizing checkpos w with
  | zero => exact .refl w
  | succ n ih =>
    have hturn : turnStep (.timeout (wrapPos checkpos).castSucc now, io) w =
        some (sweepSlot io now (wrapPos checkpos).castSucc w) := rfl
    have hplain : plain (sweepSlot io now (wrapPos checkpos).castSucc w).2 =
        (sweepSlot io now (wrapPos checkpos).castSucc w).2 := by
      unfold sweepSlot
      split
      · rfl
      · split <;> rfl
    have hto := TurnsTo.of_turn hturn
    rw [← hplain] at hto
    show TurnsTo w (plain (_ ++ _)) _
    rw [plain_append]
    exact hto.trans (ih _ _)

/-- **What the main loop does is done in turns.** -/
theorem loopStep_turns {l : LoopStep} {s : World × Slot} {r : (World × Slot) × List Act}
    (h : loopStep l s = some r) : TurnsTo s.1 (plain r.2) r.1.1 := by
  cases l with
  | sweep now io =>
    obtain rfl := Option.some.inj h
    exact .of_sweep io now 100 s.2 s.1
  | batch es =>
    obtain ⟨r', hr', rfl⟩ := Option.map_eq_some_iff.1 h
    exact .of_dispatchAll hr'

/-- Also in a whole run of it. -/
lemma TurnsTo.of_loop {ls : List LoopStep} {s : World × Slot} {r : (World × Slot) × List Act}
    (h : exec loopStep ls s = some r) : TurnsTo s.1 (plain r.2) r.1.1 := by
  induction ls generalizing s r with
  | nil =>
    obtain rfl := Option.some.inj h
    exact .refl s.1
  | cons l ls ih =>
    obtain ⟨r₁, r₂, h₁, h₂, rfl⟩ := exec_cons_eq_some.1 h
    rw [plain_append]
    exact (loopStep_turns h₁).trans (ih h₂)

/-- **The terminator is stored inside of the buffer exactly if the chunk does not fill it**, and
in a run of the server `len`, the terminator and the prints are right in every state exactly if no
chunk of the run fills the buffer.  The last part says the one direction of the main loop, which
runs many turns in one step. -/
theorem terminated_iff (ev : MyEvent) (bytes : List UInt8) (hle : bytes.length ≤ bufLen)
    (io : Io) (lfd : ℤ) :
    (TerminatorRight bytes.length (ev.fill bytes hle) (received bytes hle ev) ↔
      bytes.length < bufLen) ∧
      (∀ ls : List (Turn × Io),
        Allowed (recorded turnStep)
            (fun s l => ∀ r, recorded turnStep l s = some r → SendReady r.1) ls
            (initlistensocket io lfd World.initial, []) ↔
          Allowed (recorded turnStep) RecvShort ls
            (initlistensocket io lfd World.initial, [])) ∧
      ∀ (ls : List LoopStep) (q : (World × Slot) × List Act),
        exec loopStep ls (initlistensocket io lfd World.initial, 0) = some q →
          (∀ p fd bytes, .recv p fd bytes ∈ q.2 → bytes.length < bufLen) →
            SendReady (q.1.1, plain q.2) := by
  refine ⟨terminatorRight_iff hle, fun ls => ?_, fun ls q hq hshort => ?_⟩
  · exact allowed_congr SendReady
      (fun s l hs => ⟨SendReady.recvShort, fun hshort r => hs.step hshort⟩)
      (fun s l r hs => hs.step) (sendReady_start io lfd)
  · obtain ⟨turns, hturns⟩ := TurnsTo.of_loop hq
    exact (sendReady_start io lfd).turns hturns fun p fd bytes hmem =>
      hshort p fd bytes (List.mem_of_mem_filter hmem)

/-- A client connects, and something is received from it. -/
def acceptAndReceive (result : RecvResult) : List LoopStep :=
  [.batch [(⟨epollIn, listener⟩, { Io.still true with accept := some 5 })],
    .batch [(⟨epollIn, 0⟩, { Io.still true with recv := fun _ => result })]]

theorem terminated_iff_hi :
    TerminatorRight 2 (MyEvent.zero.fill [104, 105] (by decide))
        (received [104, 105] (by decide) MyEvent.zero) ∧
      ∃ q, exec loopStep (acceptAndReceive (.data [104, 105] (by decide) (by decide)))
          (initlistensocket (Io.still true) 4 World.initial, 0) = some q ∧
        (q.1.1.slot 0).callBack = .senddata ∧ SendReady (q.1.1, plain q.2) := by
  obtain ⟨hrecv, -, hloop⟩ :=
    terminated_iff MyEvent.zero [104, 105] (by decide) (Io.still true) 4
  have hrun : (exec loopStep (acceptAndReceive (.data [104, 105] (by decide) (by decide)))
      (initlistensocket (Io.still true) 4 World.initial, 0)).map
        (fun q => ((q.1.1.slot 0).callBack, q.2)) =
        some (.senddata, [.callback listener .acceptconn 4 true, .accept 5,
          .callback 0 .recvdata 5 true, .recv 0 5 [104, 105]]) := rfl
  obtain ⟨q, hq, hend⟩ := Option.map_eq_some_iff.1 hrun
  obtain ⟨hcb, hacts⟩ := Prod.mk.inj hend
  refine ⟨hrecv.2 (by decide), q, hq, hcb, hloop _ q hq fun p fd bytes hmem => ?_⟩
  obtain ⟨-, -, rfl⟩ : p = 0 ∧ fd = 5 ∧ bytes = [104, 105] := by simpa [hacts] using hmem
  decide

/-- A chunk that fills the buffer. -/
theorem terminator_outside :
    ¬ TerminatorRight bufLen (MyEvent.zero.fill (List.replicate bufLen 65) (by simp))
      (received (List.replicate bufLen 65) (by simp) MyEvent.zero) := by
  intro h
  have hlen := h.len
  rw [received_of_eq (by simp)] at hlen
  exact absurd hlen (by decide)

end LibeventLearn.Reactor
