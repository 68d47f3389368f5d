import LibeventLearn.Lib.Simulation
import LibeventLearn.Reactor.Echo
import LibeventLearn.Reactor.Serving

/-!
# The protocol of a connection

Seen from outside, the server goes through a simple protocol with every descriptor: it accepts a
connection, receives a chunk of at most `BUFLEN` bytes, sends a part of it back, receives the next
one, and so on until it closes the connection, which it may do at any time.  It never answers a
chunk that fills the buffer.  This file states the protocol, and shows that a server that is
lucky with its accepts refines it over its whole life.
-/

namespace LibeventLearn.Reactor

open Lib Epoll

/-! ## The protocol -/

/-- Whose turn it is on a connection. -/
inductive Phase where
  /-- The client's. -/
  | reading
  /-- The server's, which has received this chunk. -/
  | writing (chunk : List UInt8)

/-- The events of the protocol. -/
inductive ConnEvent where
  | accepted (fd : ℤ)
  | received (fd : ℤ) (bytes : List UInt8)
  | sent (fd : ℤ) (bytes : List UInt8)
  | closed (fd : ℤ)
deriving DecidableEq

/-- The connections, by their descriptors. -/
abbrev Conns := ℤ → Option Phase

/-- The protocol. -/
inductive ConnStep : Conns → ConnEvent → Conns → Prop
  | accepted {c : Conns} {fd : ℤ} (h : c fd = none) :
      ConnStep c (.accepted fd) (Function.update c fd (some .reading))
  | received {c : Conns} {fd : ℤ} {bytes : List UInt8} (h : c fd = some .reading)
      (hpos : 0 < bytes.length) (hle : bytes.length ≤ bufLen) :
      ConnStep c (.received fd bytes) (Function.update c fd (some (.writing bytes)))
  | sent {c : Conns} {fd : ℤ} {chunk bytes : List UInt8} (h : c fd = some (.writing chunk))
      (hlt : chunk.length < bufLen) (hpos : 0 < bytes.length) (hpre : bytes <+: chunk) :
      ConnStep c (.sent fd bytes) (Function.update c fd (some .reading))
  | closed {c : Conns} {fd : ℤ} (h : c fd ≠ none) :
      ConnStep c (.closed fd) (Function.update c fd none)

/-- 1 for a connection that there is. -/
def Conns.live (fd : ℤ) (c : Conns) : ℕ := if (c fd).isSome then 1 else 0

lemma live_update_of_ne {fd fd' : ℤ} {c : Conns} {x : Option Phase} (h : fd ≠ fd') :
    Conns.live fd (Function.update c fd' x) = Conns.live fd c := by
  rw [Conns.live, Function.update_of_ne h, Conns.live]

lemma toNat_beq (e e' : ConnEvent) : (e == e').toNat = if e = e' then 1 else 0 := by
  by_cases h : e = e'
  · simp [h]
  · rw [beq_eq_false_iff_ne.2 h, if_neg h]
    rfl

/-- A step begins a connection where there is none, ends one that there is, or keeps it. -/
lemma ConnStep.balance (fd : ℤ) {c c' : Conns} {e : ConnEvent} (h : ConnStep c e c') :
    Conns.live fd c + (e == .accepted fd).toNat = Conns.live fd c' + (e == .closed fd).toNat := by
  rw [toNat_beq, toNat_beq]
  cases h with
  | @accepted fd' h =>
    rcases eq_or_ne fd fd' with rfl | hne
    · simp [Conns.live, h]
    · simp [live_update_of_ne hne, hne.symm]
  | @received fd' bytes h hpos hle =>
    rcases eq_or_ne fd fd' with rfl | hne
    · simp [Conns.live, h]
    · simp [live_update_of_ne hne]
  | @sent fd' chunk bytes h hlt hpos hpre =>
    rcases eq_or_ne fd fd' with rfl | hne
    · simp [Conns.live, h]
    · simp [live_update_of_ne hne]
  | @closed fd' h =>
    rcases eq_or_ne fd fd' with rfl | hne
    · simp [Conns.live, Option.isSome_iff_ne_none.2 h]
    · simp [live_update_of_ne hne, hne.symm]

/-- In every history of the protocol, a descriptor is closed as often as it is accepted, but for
the connection that there is. -/
theorem accepted_eq_closed_add_live (fd : ℤ) {es : List ConnEvent} {c : Conns}
    (h : Trace ConnStep (fun _ => none) es c) :
    es.count (.accepted fd) = es.count (.closed fd) + Conns.live fd c := by
  have hbalance := h.balance (f := Conns.live fd) (fun _ _ _ hstep => hstep.balance fd)
  have hnone : Conns.live fd (fun _ => none) = 0 := rfl
  rw [List.count, List.count]
  omega

/-! ## What the slots show -/

variable {io : Io} {p q : Slot} {w w' w₀ : World} {c : Conns} {lfd cfd t : ℤ}
  {l : EpollEvent × Io} {es : List (EpollEvent × Io)} {r : World × List Act}

/-- What is seen of an action from outside.  Running a callback is not. -/
def Act.event : Act → Option ConnEvent
  | .callback _ _ _ _ => none
  | .recv _ fd bytes => some (.received fd bytes)
  | .send _ fd bytes => some (.sent fd bytes)
  | .close _ fd _ => some (.closed fd)
  | .accept fd => some (.accepted fd)

/-- The phase of the connection in a slot.  A chunk that fills the buffer leaves 0 for its
length. -/
def MyEvent.phase (ev : MyEvent) : Phase :=
  if ev.callBack = .senddata then .writing (if ev.len = 0 then ev.buf.toList else ev.outgoing)
  else .reading

/-- The slots show these connections. -/
structure Shows (lfd t : ℤ) (w : World) (c : Conns) : Prop extends Serving lfd t w where
  phase : ∀ p ≠ listener, (w.slot p).status = 1 → c (w.slot p).fd = some (w.slot p).phase
  held : ∀ fd, c fd ≠ none → Held fd w
  short : ∀ p ≠ listener, (w.slot p).status = 1 → (w.slot p).callBack = .senddata →
    (w.slot p).len < bufLen

/-- A `send` for the connection of the entry is answered as `send` may be. -/
def AnswersSend (w : World) (l : EpollEvent × Io) : Prop :=
  l.1.ptr ≠ listener → (w.slot l.1.ptr).callBack = .senddata →
    SendLegal (l.2.send (w.slot l.1.ptr).fd) (w.slot l.1.ptr).len

/-- So is every `send` of a batch. -/
def LoopSends (s : World × Slot) (l : LoopStep) : Prop :=
  match l with
  | .sweep _ _ => True
  | .batch es => Allowed dispatch AnswersSend es s.1

/-- The buffer after `recv`, as the next `senddata` finds it. -/
lemma phase_received {bytes : List UInt8} (hpos : 0 < bytes.length)
    (hle : bytes.length ≤ bufLen) (ev ev' : MyEvent) (hcb : ev'.callBack = .senddata)
    (hlen : ev'.len = (received bytes hle ev).len) (hbuf : ev'.buf = (received bytes hle ev).buf) :
    ev'.phase = .writing bytes ∧ ev'.len < bufLen := by
  rw [MyEvent.phase, if_pos hcb]
  rcases Nat.lt_or_eq_of_le hle with hlt | hfull
  · obtain ⟨hlen', hout⟩ := @received_of_lt bytes ev hle hlt
    have hne : ev'.len ≠ 0 := by omega
    rw [if_neg hne, MyEvent.outgoing, hlen, hbuf]
    refine ⟨congrArg Phase.writing hout, ?_⟩
    rw [hlen']
    exact_mod_cast hlt
  · have hzero := @received_of_eq bytes ev hle hfull
    rw [hlen, if_pos hzero, hzero, hbuf]
    refine ⟨congrArg Phase.writing ?_, by decide⟩
    simp only [received, MyEvent.terminate, dif_neg (not_lt.2 hfull.ge), MyEvent.fill,
      toList_blit]
    simp [hfull]

namespace Shows

/-- After a change at one slot that keeps its descriptor, the connection is what the slot shows,
or is gone. -/
lemma of_untouched (h : Shows lfd t w c) (hp : p ≠ listener) (hs : (w.slot p).status = 1)
    (hw' : Serving lfd t w') (hu : Untouched p w w') (hfd : (w'.slot p).fd = (w.slot p).fd)
    {x : Option Phase} (hlive : (w'.slot p).status = 1 → x = some (w'.slot p).phase)
    (hdead : x ≠ none → (w'.slot p).status = 1)
    (hshort : (w'.slot p).status = 1 → (w'.slot p).callBack = .senddata →
      (w'.slot p).len < bufLen) :
    Shows lfd t w' (Function.update c (w.slot p).fd x) := by
  have hother : ∀ q ≠ listener, q ≠ p → (w'.slot q).status = 1 →
      (w.slot q).status = 1 ∧ (w.slot q).fd ≠ (w.slot p).fd := by
    intro q hq hqp hqs
    rw [hu.slot q hqp] at hqs
    exact ⟨hqs, fun heq => hqp (h.fd_inj q hq p hp hqs hs heq)⟩
  refine ⟨hw', fun q hq hqs => ?_, fun fd hc => ?_, fun q hq hqs => ?_⟩
  · rcases eq_or_ne q p with rfl | hqp
    · rw [hfd, Function.update_self]
      exact hlive hqs
    · obtain ⟨hqs', hne⟩ := hother q hq hqp hqs
      rw [hu.slot q hqp, Function.update_of_ne hne]
      exact h.phase q hq hqs'
  · rcases eq_or_ne fd (w.slot p).fd with rfl | hne
    · rw [Function.update_self] at hc
      exact ⟨p, hp, hdead hc, hfd⟩
    · rw [Function.update_of_ne hne] at hc
      obtain ⟨q, hq, hqs, hqfd⟩ := h.held fd hc
      have hqp : q ≠ p := by
        rintro rfl
        exact hne hqfd.symm
      refine ⟨q, hq, ?_, ?_⟩ <;> rw [hu.slot q hqp] <;> assumption
  · rcases eq_or_ne q p with rfl | hqp
    · exact hshort hqs
    · rw [hu.slot q hqp]
      exact h.short q hq (hother q hq hqp hqs).1

/-- Closing a connection. -/
lemma dropped (h : Shows lfd t w c) (hp : p ≠ listener) (hs : (w.slot p).status = 1)
    (hd : Dropped p w w') :
    ConnStep c (.closed (w.slot p).fd) (Function.update c (w.slot p).fd none) ∧
      Shows lfd t w' (Function.update c (w.slot p).fd none) := by
  have hgone : (w'.slot p).status ≠ 1 := by
    rw [hd.slot_self]
    exact statusDel_ne _
  constructor
  · refine .closed ?_
    rw [h.phase p hp hs]
    exact Option.some_ne_none _
  · exact h.of_untouched hp hs (h.toServing.dropped hp hs hd) hd.untouched
      (by rw [hd.slot_self]) (fun hone => absurd hone hgone) (fun hno => absurd rfl hno)
      fun hone => absurd hone hgone

/-- **A callback of a client** is one step of the protocol. -/
lemma callback (h : Shows lfd t w c) (hp : p ≠ listener) (hs : (w.slot p).status = 1)
    (hsend : (w.slot p).callBack = .senddata → SendLegal (io.send (w.slot p).fd) (w.slot p).len)
    (hcase : CallbackCase p io w r) :
    ∃ c', Trace ConnStep c (r.2.filterMap Act.event) c' ∧ Shows lfd t r.1 c' := by
  have hserving : Serving lfd t r.1 := h.toServing.callback hp hs hcase
  have hu := hcase.untouched
  have hfd := hcase.fd_eq
  have hphase := h.phase p hp hs
  rcases hcase with ⟨bytes, hpos, hle, hcb, -, hslot, hact⟩ | ⟨hcb, hpos, hslot, hact⟩ |
    ⟨-, hslot, hact⟩
  · obtain ⟨hnow, hlen⟩ := phase_received hpos hle (w.slot p) (r.1.slot p)
      (by rw [hslot.slot_self]; rfl) (by rw [hslot.slot_self]; rfl)
      (by rw [hslot.slot_self]; rfl)
    refine ⟨_, ?_, h.of_untouched (x := some (.writing bytes)) hp hs hserving hu hfd
      (fun _ => by rw [hnow]) (fun _ => ?_) fun _ _ => hlen⟩
    · rw [hact]
      refine .single (.received ?_ hpos hle)
      rw [hphase, MyEvent.phase, if_neg (by rw [hcb]; decide)]
    · rw [hslot.slot_self]
      rfl
  · have hlegal := hsend hcb
    have hshort := h.short p hp hs hcb
    have hbuf : ((w.slot p).buf.toList).length = bufLen := Vector.length_toList
    -- something was accepted, so the length is not 0, and the chunk is what is sent
    have hlen : 0 < (w.slot p).len ∧ io.send (w.slot p).fd ≤ (w.slot p).len := by
      unfold SendLegal at hlegal
      omega
    rw [MyEvent.phase, if_pos hcb, if_neg hlen.1.ne'] at hphase
    have hchunk : (w.slot p).outgoing.length = (w.slot p).len.toNat := by
      rw [MyEvent.outgoing, List.length_take, hbuf]
      omega
    refine ⟨_, ?_, h.of_untouched (x := some .reading) hp hs hserving hu hfd
      (fun _ => ?_) (fun _ => ?_) fun _ hcb' => ?_⟩
    · rw [hact]
      refine .single (.sent hphase ?_ ?_ (List.take_prefix _ _))
      · rw [hchunk]
        omega
      · rw [List.length_take, hchunk]
        omega
    · rw [hslot.slot_self]
      rfl
    · rw [hslot.slot_self]
      rfl
    · rw [hslot.slot_self] at hcb'
      cases hcb'
  · obtain ⟨hstep, hshows⟩ := h.dropped hp hs hslot
    refine ⟨_, ?_, hshows⟩
    rw [hact]
    exact .single hstep

/-- Putting a new descriptor into a free slot. -/
lemma admitted (h : Shows lfd t w c) (hnew : w.kernel.isOpen cfd = false)
    (hw' : Serving lfd t w') (hp : p ≠ listener) (hfree : (w.slot p).status = 0)
    (hslot : Admitted io cfd p w w') :
    ConnStep c (.accepted cfd) (Function.update c cfd (some .reading)) ∧
      Shows lfd t w' (Function.update c cfd (some .reading)) := by
  have hne : ∀ q ≠ listener, (w.slot q).status = 1 → (w.slot q).fd ≠ cfd :=
    fun q hq hqs => h.fd_ne_of_not_open hnew hq hqs
  -- the other slots are as they were
  have hother : ∀ q ≠ p, w'.slot q = w.slot q := hslot.slot_of_ne
  have hself : (w'.slot p).status = 1 ∧ (w'.slot p).fd = cfd ∧
      (w'.slot p).callBack = .recvdata := by
    rw [hslot.slot_self]
    exact ⟨rfl, rfl, rfl⟩
  refine ⟨.accepted ?_, ⟨hw', fun q hq hqs => ?_, fun fd hc => ?_, fun q hq hqs hcb => ?_⟩⟩
  · by_contra hc
    obtain ⟨q, hq, hqs, hqfd⟩ := h.held cfd hc
    exact hne q hq hqs hqfd
  · rcases eq_or_ne q p with rfl | hqp
    · rw [hself.2.1, Function.update_self, MyEvent.phase, if_neg (by rw [hself.2.2]; decide)]
    · rw [hother q hqp] at hqs ⊢
      rw [Function.update_of_ne (hne q hq hqs)]
      exact h.phase q hq hqs
  · rcases eq_or_ne fd cfd with rfl | hfd
    · exact ⟨p, hp, hself.1, hself.2.1⟩
    · rw [Function.update_of_ne hfd] at hc
      obtain ⟨q, hq, hqs, hqfd⟩ := h.held fd hc
      have hqp : q ≠ p := by
        rintro rfl
        rw [hfree] at hqs
        cases hqs
      refine ⟨q, hq, ?_, ?_⟩ <;> rw [hother q hqp] <;> assumption
  · rcases eq_or_ne q p with rfl | hqp
    · cases (hself.2.2.symm.trans hcb)
    · rw [hother q hqp] at hqs hcb ⊢
      exact h.short q hq hqs hcb

/-- **A lucky accept** is one step of the protocol, or none. -/
lemma accepted (h : Shows lfd t w c)
    (hnew : ∀ cfd, io.accept = some cfd → w.kernel.isOpen cfd = false)
    (hlucky : io.accept ≠ none → FreeIndex io w) (hr : acceptStep io w = some r)
    (hserving : Serving lfd t r.1) :
    ∃ c', Trace ConnStep c (r.2.filterMap Act.event) c' ∧ Shows lfd t r.1 c' := by
  have hcase := acceptStep_cases io w
  rw [hr] at hcase
  cases hcase with
  | failed haccept => exact ⟨c, .nil c, h⟩
  | kept cfd haccept hin hk =>
    obtain ⟨hf, p, hp, hi, -⟩ := hlucky (by rw [haccept]; exact Option.some_ne_none _)
    have hlt := Fin.val_lt_last hp
    rcases hk with hk | hk <;> omega
  | filled cfd p w' haccept hp hi hf hslot =>
    obtain ⟨-, q, -, hi', hfree⟩ := hlucky (by rw [haccept]; exact Option.some_ne_none _)
    obtain rfl : p = q := Fin.ext (by omega)
    obtain ⟨hstep, hshows⟩ := h.admitted (hnew cfd haccept) hserving hp hfree hslot
    exact ⟨_, .single hstep, hshows⟩

/-- **One entry.** -/
lemma entry (h : Shows lfd t w c) (hl : Awaited w₀ w l) (hfresh : FreshAccept w l)
    (hlucky : Lucky w l) (hsend : AnswersSend w l) (hr : dispatch l w = some r) :
    ∃ c', Trace ConnStep c (r.2.filterMap Act.event) c' ∧ Shows lfd t r.1 c' := by
  have hserving : Serving lfd t r.1 := by
    obtain ⟨r', hr', hright⟩ := (h.toServing.entry_iff hl hfresh).1.2 hlucky
    obtain rfl := Option.some.inj (hr.symm.trans hr')
    exact hright.serving
  obtain ⟨e, io⟩ := l
  by_cases hp : e.ptr = listener
  · rw [dispatch_listener h.listening hp hfresh] at hr
    split at hr
    · rename_i hin
      obtain ⟨r', hr', rfl⟩ := Option.map_eq_some_iff.1 hr
      have hserving' : Serving lfd t r'.1 := hserving
      have hnew : ∀ cfd, io.accept = some cfd → w.kernel.isOpen cfd = false := hfresh hp
      have hr₁ : ∃ c', Trace ConnStep c (r'.2.filterMap Act.event) c' ∧ Shows lfd t r'.1 c' :=
        h.accepted hnew (hlucky hp hin) hr' hserving'
      exact hr₁
    · obtain rfl := Option.some.inj hr
      exact ⟨c, .nil c, h⟩
  · obtain ⟨hlive, m, -, hm, hbits⟩ := hl hp
    rcases dispatch_once io (h.paired e.ptr hp hlive) hm hbits with ⟨-, hr'⟩ | ⟨r', -, hcase, hr'⟩
    · obtain rfl := Option.some.inj (hr.symm.trans hr')
      exact ⟨c, .nil c, h⟩
    · obtain rfl := Option.some.inj (hr.symm.trans hr')
      have hr₁ : ∃ c', Trace ConnStep c (r'.2.filterMap Act.event) c' ∧ Shows lfd t r'.1 c' :=
        h.callback hp hlive (hsend hp) hcase
      exact hr₁

/-- **One sweep.** -/
lemma sweep (io : Io) (now : ℤ) (n : ℕ) (checkpos : Slot) (h : Shows lfd t w c) :
    ∃ c', Trace ConnStep c ((sweep io now n checkpos w).2.filterMap Act.event) c' ∧
      Shows lfd t (Reactor.sweep io now n checkpos w).1.1 c' := by
  induction n generalizing checkpos w c with
  | zero => exact ⟨c, .nil c, h⟩
  | succ n ih =>
    have hp := castSucc_ne_listener (wrapPos checkpos)
    obtain ⟨c', ht, h'⟩ : ∃ c', Trace ConnStep c
        ((sweepSlot io now (wrapPos checkpos).castSucc w).2.filterMap Act.event) c' ∧
        Shows lfd t (sweepSlot io now (wrapPos checkpos).castSucc w).1 c' := by
      by_cases hidle : Idle now (w.slot (wrapPos checkpos).castSucc)
      · obtain ⟨hd, hact⟩ := sweepSlot_idle io hidle
        obtain ⟨hstep, hshows⟩ := h.dropped hp hidle.1 hd
        refine ⟨_, ?_, hshows⟩
        rw [hact]
        exact .single hstep
      · rw [sweepSlot_not_idle hidle]
        exact ⟨c, .nil c, h⟩
    obtain ⟨c'', ht', h''⟩ := ih (wrapPos checkpos).succ h'
    refine ⟨c'', ?_, h''⟩
    rw [Reactor.sweep, List.filterMap_append]
    exact ht.append ht'

/-- **One step of the loop.** -/
lemma loopStep {s : World × Slot} (h : Shows lfd t s.1 c) {l : LoopStep}
    {r : (World × Slot) × List Act} (hl : ServerLegal s l) (hlucky : LoopLucky s l)
    (hsend : LoopSends s l) (hr : loopStep l s = some r) :
    ∃ c', Trace ConnStep c (r.2.filterMap Act.event) c' ∧ Shows lfd t r.1.1 c' := by
  cases l with
  | sweep now io =>
    obtain rfl : Reactor.sweep io now 100 s.2 s.1 = r := Option.some.inj hr
    exact h.sweep io now 100 s.2
  | batch es =>
    obtain ⟨hwait, hfresh⟩ := hl
    obtain ⟨hdistinct, hes⟩ := h.toServing.awaited hwait
    obtain ⟨q, hq, rfl⟩ := Option.map_eq_some_iff.1 hr
    have hallowed := (h.toServing.batch_allowed hdistinct hes hfresh hlucky).and
      (Allowed.and hfresh (Allowed.and hlucky hsend))
    refine exec_simulates Act.event (Shows lfd t) ?_ h hallowed hq
    rintro w c l r hw ⟨⟨-, hl⟩, hfresh, hlucky, hsend⟩ hr
    exact hw.entry hl hfresh hlucky hsend hr

end Shows

/-! ## The life of the server -/

lemma shows_started (hctl : io.ctl .add lfd = true) :
    Shows lfd io.time (World.started io lfd).1 fun _ => none := by
  have hno : ∀ p ≠ listener, ((World.started io lfd).1.slot p).status ≠ 1 := by
    intro p hp hs
    rw [started_slot_of_ne hp] at hs
    cases hs
  exact ⟨serving_started hctl, fun p hp hs => absurd hs (hno p hp), fun _ hc => absurd rfl hc,
    fun p hp hs => absurd hs (hno p hp)⟩

/-- A whole life that is lucky. -/
lemma simulates_started {ls : List LoopStep} (hctl : io.ctl .add lfd = true)
    (hls : Allowed loopStep ServerLegal ls (World.started io lfd))
    (hlucky : Allowed loopStep LoopLucky ls (World.started io lfd))
    (hsend : Allowed loopStep LoopSends ls (World.started io lfd)) :
    ∃ q c, exec loopStep ls (World.started io lfd) = some q ∧
      Trace ConnStep (fun _ => none) (q.2.filterMap Act.event) c ∧ Shows lfd io.time q.1.1 c := by
  obtain ⟨q, hq, -⟩ := (serving_started hctl).exec_ne_none hls hlucky
  obtain ⟨c, ht, hshows⟩ := exec_simulates Act.event
    (fun (s : World × Slot) c => Shows lfd io.time s.1 c)
    (fun s c l r h hl hr => h.loopStep hl.1 hl.2.1 hl.2.2 hr) (shows_started hctl)
    (hls.and (hlucky.and hsend)) hq
  exact ⟨q, c, hq, ht, hshows⟩

/-- **The server refines the protocol.**  In a lucky life with legal answers of `send`, all that
is seen of the server is a history of the protocol: between its accept and its close a
connection alternates between a chunk of 1 to `BUFLEN` bytes received and a nonempty prefix of
that chunk sent, and a chunk that fills the buffer is never answered.  The slots show the phases
that the history ends in. -/
theorem server_refines_protocol (io : Io) (lfd : ℤ) (hctl : io.ctl .add lfd = true)
    (ls : List LoopStep) (hls : Allowed loopStep ServerLegal ls (World.started io lfd))
    (hlucky : Allowed loopStep LoopLucky ls (World.started io lfd))
    (hsend : Allowed loopStep LoopSends ls (World.started io lfd)) :
    ∃ q c, exec loopStep ls (World.started io lfd) = some q ∧
      Trace ConnStep (fun _ => none) (q.2.filterMap Act.event) c ∧
      (∀ p ≠ listener, (q.1.1.slot p).status = 1 →
        c (q.1.1.slot p).fd = some (q.1.1.slot p).phase) ∧
      ∀ fd, c fd ≠ none → Held fd q.1.1 := by
  obtain ⟨q, c, hq, ht, hshows⟩ := simulates_started hctl hls hlucky hsend
  exact ⟨q, c, hq, ht, hshows.phase, hshows.held⟩

/-- **Every descriptor is accounted for.**  At any time of such a life, a descriptor other than
the listening socket has been accepted as often as it has been closed, and once more if it is
open. -/
theorem accepted_eq_closed_add_open (io : Io) (lfd : ℤ) (hctl : io.ctl .add lfd = true)
    (ls : List LoopStep) (hls : Allowed loopStep ServerLegal ls (World.started io lfd))
    (hlucky : Allowed loopStep LoopLucky ls (World.started io lfd))
    (hsend : Allowed loopStep LoopSends ls (World.started io lfd)) :
    ∃ q, exec loopStep ls (World.started io lfd) = some q ∧ ∀ fd ≠ lfd,
      (q.2.filterMap Act.event).count (.accepted fd) =
        (q.2.filterMap Act.event).count (.closed fd) + (q.1.1.kernel.isOpen fd).toNat := by
  obtain ⟨q, c, hq, ht, hshows⟩ := simulates_started hctl hls hlucky hsend
  refine ⟨q, hq, fun fd hfd => ?_⟩
  rw [accepted_eq_closed_add_live fd ht, Nat.add_left_cancel_iff]
  -- the protocol has the connection exactly if the kernel has the descriptor
  cases hopen : q.1.1.kernel.isOpen fd with
  | true =>
    obtain ⟨p, hp, hs, rfl⟩ := (hshows.kept fd hopen).resolve_left hfd
    rw [Conns.live, hshows.phase p hp hs]
    rfl
  | false =>
    suffices hc : c fd = none by
      rw [Conns.live, hc]
      rfl
    by_contra hc
    obtain ⟨p, hp, hs, rfl⟩ := hshows.held fd hc
    rw [hshows.isOpen p hp hs] at hopen
    cases hopen

/-! ## A conversation -/

/-- The entry, alone in its batch, is that of descriptor 5 in slot 0 as the kernel knows it, and
`send` is answered as it may be. -/
def Due (s : World × Slot) : LoopStep → Prop
  | .batch [l] => l.1.ptr = 0 ∧ s.1.kernel.interest 5 = some (l.1.events, 0) ∧
      Reportable l.1.events l.1.events ∧ SendLegal (l.2.send (s.1.slot 0).fd) (s.1.slot 0).len
  | _ => False

instance : ∀ (s : World × Slot) (l : LoopStep), Decidable (Due s l)
  | _, .sweep _ _ => inferInstanceAs (Decidable False)
  | _, .batch [] => inferInstanceAs (Decidable False)
  | _, .batch [_] => inferInstanceAs (Decidable (_ ∧ _ ∧ _ ∧ (_ ∨ (_ ∧ _) ∨ (_ ∧ _))))
  | _, .batch (_ :: _ :: _) => inferInstanceAs (Decidable False)

/-- Such a step is legal, and there is no luck in it. -/
lemma Due.legal {s : World × Slot} {l : LoopStep} (h : Due s l) :
    ServerLegal s l ∧ LoopLucky s l ∧ LoopSends s l := by
  rcases l with _ | ⟨_ | ⟨⟨⟨m, p⟩, io⟩, _ | _⟩⟩
  · cases h
  · cases h
  · obtain ⟨hp, hint, hbits, hsend⟩ := h
    obtain rfl : p = 0 := hp
    refine ⟨⟨Kernel.waitReturns_singleton hint hbits, ?_⟩, ?_, ?_⟩
    · exact allowed_cons.2 ⟨fun heq => absurd heq zero_ne_listener, fun _ _ => allowed_nil _ _⟩
    · exact allowed_cons.2 ⟨fun heq => absurd heq zero_ne_listener, fun _ _ => allowed_nil _ _⟩
    · exact allowed_cons.2 ⟨fun _ _ => hsend, fun _ _ => allowed_nil _ _⟩
  · cases h

/-- A client has sent "hey". -/
def Io.hey : Io :=
  { Io.still true with recv := fun _ => .data [104, 101, 121] (by decide) (by decide) }

/-- It is answered, one byte at first; then the client closes its side. -/
def turns : List LoopStep :=
  [.batch [(⟨epollIn, 0⟩, Io.hey)],
    .batch [(⟨epollOut, 0⟩, { Io.still true with send := fun _ => 1 })],
    .batch [(⟨epollIn, 0⟩, Io.still true)]]

/-- A whole connection. -/
def talk : List LoopStep := .batch [knock 5 0] :: turns

lemma turns_due : ∀ r, loopStep (.batch [knock 5 0]) (World.started (Io.still true) 4) = some r →
    Allowed loopStep Due turns r.1 := by
  have hdue : ∀ r ∈ loopStep (.batch [knock 5 0]) (World.started (Io.still true) 4),
      Allowed loopStep Due turns r.1 := by
    decide +kernel
  exact hdue

lemma talk_legal : Allowed loopStep ServerLegal talk (World.started (Io.still true) 4) :=
  ⟨(serving_started rfl).knock_legal 0 (started_closed (by decide)),
    fun r hr => (turns_due r hr).imp fun _ _ hl => hl.legal.1⟩

lemma talk_lucky : Allowed loopStep LoopLucky talk (World.started (Io.still true) 4) :=
  ⟨knock_lucky zero_ne_listener (started_free zero_ne_listener),
    fun r hr => (turns_due r hr).imp fun _ _ hl => hl.legal.2.1⟩

lemma talk_sends : Allowed loopStep LoopSends talk (World.started (Io.still true) 4) :=
  ⟨allowed_cons.2 ⟨fun hp => absurd rfl hp, fun _ _ => allowed_nil _ _⟩,
    fun r hr => (turns_due r hr).imp fun _ _ hl => hl.legal.2.2⟩

lemma talk_events {q : (World × Slot) × List Act}
    (hq : exec loopStep talk (World.started (Io.still true) 4) = some q) :
    q.2.filterMap Act.event =
      [.accepted 5, .received 5 [104, 101, 121], .sent 5 [104], .closed 5] := by
  have hevents : (exec loopStep talk (World.started (Io.still true) 4)).map
      (fun q => q.2.filterMap Act.event) =
        some [.accepted 5, .received 5 [104, 101, 121], .sent 5 [104], .closed 5] := by
    decide +kernel
  rw [hq] at hevents
  exact Option.some.inj hevents

/-- The conversation goes through every part of the protocol. -/
theorem server_refines_protocol_talk :
    ∃ q c, exec loopStep talk (World.started (Io.still true) 4) = some q ∧
      q.2.filterMap Act.event =
        [.accepted 5, .received 5 [104, 101, 121], .sent 5 [104], .closed 5] ∧
      Trace ConnStep (fun _ => none) (q.2.filterMap Act.event) c ∧
      (∀ p ≠ listener, (q.1.1.slot p).status = 1 →
        c (q.1.1.slot p).fd = some (q.1.1.slot p).phase) ∧
      ∀ fd, c fd ≠ none → Held fd q.1.1 := by
  obtain ⟨q, c, hq, hright⟩ :=
    server_refines_protocol (Io.still true) 4 rfl talk talk_legal talk_lucky talk_sends
  exact ⟨q, c, hq, talk_events hq, hright⟩

theorem accepted_eq_closed_add_open_talk :
    ∃ q, exec loopStep talk (World.started (Io.still true) 4) = some q ∧
      (q.2.filterMap Act.event).count (.closed 5) = 1 ∧
      ∀ fd ≠ 4, (q.2.filterMap Act.event).count (.accepted fd) =
        (q.2.filterMap Act.event).count (.closed fd) + (q.1.1.kernel.isOpen fd).toNat := by
  obtain ⟨q, hq, hbalance⟩ :=
    accepted_eq_closed_add_open (Io.still true) 4 rfl talk talk_legal talk_lucky talk_sends
  refine ⟨q, hq, ?_, hbalance⟩
  rw [talk_events hq]
  rfl

end LibeventLearn.Reactor
