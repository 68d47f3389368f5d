import LibeventLearn.EpollDemo.Client
import LibeventLearn.EpollDemo.Reply

/-!
# One client and the server

The two programs, with a queue of bytes in each direction.  The client takes the first `read`
that returns less than `MAX_LINE` for the end of the answer, but the server answers a line in
many pieces, with a whole blank buffer after each: the two never agree on where the answer to a
line ends.
-/

namespace LibeventLearn.EpollDemo

open Lib Epoll

/-- The two programs and what is in flight between them.  The last three fields are the
bookkeeping of the current line: its text, what the client has read since it sent the line, and
what the server has written since. -/
structure Session where
  server : Server
  client : Client
  toServer : List UInt8
  toClient : List UInt8
  line : List UInt8
  consumed : List UInt8
  reply : List UInt8

/-- A step of one of the programs.  A `read` that succeeds returns some bytes from the front of
its queue, however many. -/
inductive SessionStep where
  /-- The client reads a line from the terminal and sends it. -/
  | line (line : List UInt8)
  /-- The server handles `EPOLLIN`. -/
  | serverIn (bytes : List UInt8) (pos : 0 < bytes.length) (le : bytes.length ≤ readLen)
  /-- The server handles `EPOLLOUT`. -/
  | serverOut
  /-- The client reads from the server. -/
  | clientRead (result : ReadResult maxLine)

/-- The bytes handed to `send`. -/
def sentBy (h : List ClientCall) : List UInt8 :=
  h.flatMap fun a => match a with
    | .send bytes => bytes
    | .print _ => []

/-- The session after the server has handled an entry of the client `c`. -/
def Session.served (c : ℤ) (s : Session) (read : List UInt8) (r : Server × List Call) : Session :=
  { s with
    server := r.1
    toServer := s.toServer.drop read.length
    toClient := s.toClient ++ written c r.2
    reply := s.reply ++ written c r.2 }

/-- The step function; `c` is the descriptor of the client at the server. -/
def sessionStep (listenFd c : ℤ) : SessionStep → Session → Option (Session × List ClientCall)
  | .line line, s =>
    (sendLine line s.client).map fun r =>
      ({ s with
          client := r.1
          toServer := s.toServer ++ sentBy r.2
          line := line
          consumed := []
          reply := [] }, r.2)
  | .serverIn bytes pos le, s =>
    (handleEntry listenFd c (Entry.sends c bytes pos le) s.server).map fun r =>
      (s.served c bytes r, [])
  | .serverOut, s =>
    (handleEntry listenFd c (Entry.writable c) s.server).map fun r => (s.served c [] r, [])
  | .clientRead result, s =>
    (readAnswer result s.client).map fun r =>
      ({ s with
          client := r.1
          toClient := s.toClient.drop result.bytes.length
          consumed := s.consumed ++ result.bytes }, r.2)

/-- The client reads a line when it is not reading an answer; the server handles an entry when
it may be reported; nobody reads bytes that are not there. -/
def SessionLegal (c : ℤ) (s : Session) : SessionStep → Prop
  | .line line => s.client.reading = false ∧ 0 < line.length ∧ line.length < inputLen
  | .serverIn bytes _ _ => bytes <+: s.toServer ∧
      ∃ m, s.server.kernel.interest c = some (m, c) ∧ Reportable m epollIn
  | .serverOut => ∃ m, s.server.kernel.interest c = some (m, c) ∧ Reportable m epollOut
  | .clientRead result => s.client.reading = true ∧ result.bytes <+: s.toClient

/-- What is expected when the client stops reading: the server is done with the line, the client
has read exactly what the server wrote for it, and has printed the line in upper case. -/
structure Agreed (c : ℤ) (s : Session) (calls : List ClientCall) : Prop where
  done : s.toServer = [] ∧ UnderIn c s.server
  consumed : s.consumed = s.reply
  printed : calls = [.print ((cText s.line).map toupper)]

/-- What is expected of a step. -/
def RoundRight (c : ℤ) (_ : Session) (l : SessionStep) (r : Session × List ClientCall) : Prop :=
  match l with
  | .clientRead _ => r.1.client.reading = false → Agreed c r.1 r.2
  | _ => True

/-- A `read` of the client is the first one for its line, and returns all it was asked for. -/
def FirstFull (s : Session) (l : SessionStep) : Prop :=
  match l with
  | .clientRead result => s.client.count = 0 ∧ result.bytes.length = maxLine
  | _ => True

/-! ## The invariant -/

variable {listenFd c : ℤ} {s : Session} {l : SessionStep}

/-- What holds while the client reads an answer. -/
structure Reading (c : ℤ) (s : Session) : Prop where
  count_eq : s.client.count = s.consumed.length
  count_cases : s.client.count = 0 ∨ s.client.count = maxLine
  /-- The server has not started with the line, or has to write, or has written a lot. -/
  server : s.toServer ≠ [] ∨ s.server.kernel.interest c = some (epollOut, c) ∨
    bufferMaxLen ≤ s.reply.length

/-- The invariant of the runs in which the client reads as `FirstFull` says. -/
structure SessionInv (c : ℤ) (s : Session) : Prop where
  blank : s.server.Blank
  registered : (∃ m, InMask m ∧ s.server.kernel.interest c = some (m, c)) ∨
    s.server.kernel.interest c = some (epollOut, c)
  reading : s.client.reading = true → Reading c s

/-- An answer is never complete when the client stops reading. -/
lemma Reading.incomplete (h : Reading c s) {client : Client}
    {toClient bytes : List UInt8} {calls : List ClientCall} (hle : bytes.length ≤ maxLine) :
    ¬ Agreed c { s with
      client := client, toClient := toClient, consumed := s.consumed ++ bytes } calls := by
  rintro ⟨⟨hnil, m, hint, hin⟩, heq, -⟩
  rcases h.server with hne | hout | hlong
  · exact hne hnil
  · obtain rfl : m = epollOut := congrArg Prod.fst (Option.some.inj (hint.symm.trans hout))
    cases hin
  · -- the client has read less than one buffer
    have hlen := congrArg List.length heq
    simp only [List.length_append, ← h.count_eq] at hlen
    have hcount : s.client.count ≤ maxLine := by
      cases h.count_cases <;> omega
    have : maxLine + maxLine < bufferMaxLen := by decide
    omega

/-- The server handles `EPOLLIN`: it reads a piece and waits to write. -/
lemma session_serverIn (hne : c ≠ listenFd) (hs : SessionInv c s) {bytes : List UInt8}
    {hpos : 0 < bytes.length} {hle : bytes.length ≤ readLen}
    (hlegal : SessionLegal c s (.serverIn bytes hpos hle)) :
    ∃ r, sessionStep listenFd c (.serverIn bytes hpos hle) s = some r ∧ SessionInv c r.1 := by
  obtain ⟨-, m, hint, -⟩ := hlegal
  have hout : (kernelAfter listenFd c (Entry.sends c bytes hpos hle)
      s.server.kernel).interest c = some (epollOut, c) := by
    rw [kernelAfter_sends hne, Kernel.epollCtl_mod_interest, if_pos ⟨rfl, by simp [hint]⟩]
  rw [sessionStep, handleEntry_blank hs.blank]
  refine ⟨_, rfl, hs.blank, Or.inr hout, fun hread => ?_⟩
  obtain ⟨hcount, hcases, -⟩ := hs.reading hread
  exact ⟨hcount, hcases, Or.inr (Or.inl hout)⟩

/-- The server handles `EPOLLOUT`: it writes a whole buffer and waits to read. -/
lemma session_serverOut (hne : c ≠ listenFd) (hs : SessionInv c s)
    (hlegal : SessionLegal c s .serverOut) :
    ∃ r, sessionStep listenFd c .serverOut s = some r ∧ SessionInv c r.1 := by
  obtain ⟨m, hint, -⟩ := hlegal
  have hin : (kernelAfter listenFd c (Entry.writable c) s.server.kernel).interest c =
      some (epollIn, c) := by
    rw [kernelAfter_writable hne, Kernel.epollCtl_mod_interest, if_pos ⟨rfl, by simp [hint]⟩]
  have hwritten : written c (answer listenFd c (Entry.writable c)) =
      List.replicate bufferMaxLen 0 := by
    rw [answer_writable hne]
    simp [written, writesOn]
  rw [sessionStep, handleEntry_blank hs.blank]
  refine ⟨_, rfl, hs.blank, Or.inl ⟨epollIn, Or.inl rfl, hin⟩, fun hread => ?_⟩
  obtain ⟨hcount, hcases, -⟩ := hs.reading hread
  refine ⟨hcount, hcases, Or.inr (Or.inr ?_)⟩
  show bufferMaxLen ≤ (s.reply ++ written c (answer listenFd c (Entry.writable c))).length
  rw [hwritten, List.length_append, List.length_replicate]
  omega

/-- The client sends a line. -/
lemma session_line {line : List UInt8} (hs : SessionInv c s)
    (hlegal : SessionLegal c s (.line line)) :
    ∃ r, sessionStep listenFd c (.line line) s = some r ∧ SessionInv c r.1 := by
  obtain ⟨input, hsend, hinput⟩ := sendLine_spec (c := s.client) hlegal.2.2
  rw [sessionStep, hsend]
  refine ⟨_, rfl, hs.blank, hs.registered, fun _ => ⟨rfl, Or.inl rfl, Or.inl ?_⟩⟩
  simp [sentBy, hinput]

/-- A `read` that leaves the client reading is a first one that is full. -/
lemma firstFull_of_readAnswer (hreading : Reading c s) {result : ReadResult maxLine}
    {q : Client × List ClientCall} (hq : readAnswer result s.client = some q)
    (hgoes : q.1.reading = true) : FirstFull s (.clientRead result) := by
  cases result with
  | data bytes hpos hle =>
    cases hreading.count_cases with
    | inl hc =>
      refine ⟨hc, ?_⟩
      by_contra hlen
      cases ((readAnswer_short hlen hq).symm.trans hgoes)
    | inr hc =>
      rw [readAnswer_second hc] at hq
      cases hq
  | eof => cases ((printAnswer_reading hq).symm.trans hgoes)
  | error =>
    obtain rfl := Option.some.inj hq
    exact absurd hgoes Bool.false_ne_true

/-- The client reads: it gets away with a first `read` that is full, and with nothing else. -/
lemma session_clientRead (hs : SessionInv c s) {result : ReadResult maxLine}
    (hlegal : SessionLegal c s (.clientRead result)) :
    ((∃ r, sessionStep listenFd c (.clientRead result) s = some r ∧
        RoundRight c s (.clientRead result) r) ↔ FirstFull s (.clientRead result)) ∧
    ∀ r, FirstFull s (.clientRead result) →
      sessionStep listenFd c (.clientRead result) s = some r → SessionInv c r.1 := by
  have hreading := hs.reading hlegal.1
  have hfull : FirstFull s (.clientRead result) → ∃ recvline,
      readAnswer result s.client =
        some ({ s.client with recvline := recvline, count := maxLine }, []) :=
    fun h => readAnswer_first_full h.1 h.2
  refine ⟨⟨?_, fun h => ?_⟩, fun r h hr => ?_⟩
  · rintro ⟨r, hr, hround⟩
    simp only [sessionStep, Option.map_eq_some_iff] at hr
    obtain ⟨q, hq, rfl⟩ := hr
    refine firstFull_of_readAnswer hreading hq ?_
    by_contra hstop
    exact hreading.incomplete result.length_bytes_le (hround (by simpa using hstop))
  · obtain ⟨recvline, hr⟩ := hfull h
    rw [sessionStep, hr]
    refine ⟨_, rfl, fun hidle => ?_⟩
    cases (hlegal.1.symm.trans hidle)
  · obtain ⟨recvline, hread⟩ := hfull h
    rw [sessionStep, hread] at hr
    obtain rfl := Option.some.inj hr
    refine ⟨hs.blank, hs.registered, fun _ => ⟨?_, Or.inr rfl, hreading.server⟩⟩
    have hzero : s.consumed.length = 0 := by rw [← hreading.count_eq, h.1]
    show maxLine = (s.consumed ++ result.bytes).length
    rw [List.length_append, hzero, h.2, Nat.zero_add]

/-! ## Runs -/

/-- **One step.** -/
lemma session_step (hne : c ≠ listenFd) (hs : SessionInv c s) (hlegal : SessionLegal c s l) :
    ((∃ r, sessionStep listenFd c l s = some r ∧ RoundRight c s l r) ↔ FirstFull s l) ∧
      ∀ r, FirstFull s l → sessionStep listenFd c l s = some r → SessionInv c r.1 := by
  -- the steps other than a `read` of the client are always right
  have hother : (∃ r, sessionStep listenFd c l s = some r ∧ SessionInv c r.1) →
      (∀ r, RoundRight c s l r) → FirstFull s l →
      ((∃ r, sessionStep listenFd c l s = some r ∧ RoundRight c s l r) ↔ FirstFull s l) ∧
        ∀ r, FirstFull s l → sessionStep listenFd c l s = some r → SessionInv c r.1 := by
    rintro ⟨r, hr, hinv⟩ hround hfull
    refine ⟨iff_of_true ⟨r, hr, hround r⟩ hfull, fun r' _ hr' => ?_⟩
    obtain rfl := Option.some.inj (hr.symm.trans hr')
    exact hinv
  cases l with
  | line line => exact hother (session_line hs hlegal) (fun _ => trivial) trivial
  | serverIn bytes hpos hle =>
    exact hother (session_serverIn hne hs hlegal) (fun _ => trivial) trivial
  | serverOut => exact hother (session_serverOut hne hs hlegal) (fun _ => trivial) trivial
  | clientRead result => exact session_clientRead hs hlegal

/-- The session of a client that has just connected. -/
def Session.start (server : Server) (input : Vector UInt8 inputLen) : Session where
  server := server
  client := Client.start input
  toServer := []
  toClient := []
  line := []
  consumed := []
  reply := []

lemma sessionInv_start {server : Server} {input : Vector UInt8 inputLen}
    (hblank : server.Blank) {m : Mask} (hm : InMask m)
    (hc : server.kernel.interest c = some (m, c)) :
    SessionInv c (Session.start server input) :=
  ⟨hblank, Or.inl ⟨m, hm, hc⟩, fun h => absurd h Bool.false_ne_true⟩

lemma throughout_roundRight_iff (hne : c ≠ listenFd) (hs : SessionInv c s)
    {ls : List SessionStep} (hls : Allowed (sessionStep listenFd c) (SessionLegal c) ls s) :
    Throughout (sessionStep listenFd c) (RoundRight c) ls s ↔
      Allowed (sessionStep listenFd c) FirstFull ls s :=
  throughout_iff_allowed (SessionInv c) (fun _ _ hs hl => (session_step hne hs hl).1)
    (fun _ _ r hs hl hfull hr => (session_step hne hs hl).2 r hfull hr) hs hls

/-- **Agreement, exactly.**  A session of a client and the server stays defined, and the two
agree on the answer whenever the client stops reading, if and only if every `read` of the client
is the first one for its line and full.  Such a client never stops reading. -/
theorem agreed_iff_firstFull (listenFd c : ℤ) (hne : c ≠ listenFd) (server : Server)
    (hblank : server.Blank) (m : Mask) (hm : m = epollIn ∨ m = epollIn ||| epollEt)
    (hc : server.kernel.interest c = some (m, c)) (input : Vector UInt8 inputLen)
    (ls : List SessionStep)
    (hls : Allowed (sessionStep listenFd c) (SessionLegal c) ls (Session.start server input)) :
    Throughout (sessionStep listenFd c) (RoundRight c) ls (Session.start server input) ↔
      Allowed (sessionStep listenFd c) FirstFull ls (Session.start server input) :=
  throughout_roundRight_iff hne (sessionInv_start hblank hm hc) hls

/-- "hi" and a newline. -/
def hiLine : List UInt8 := [104, 105, 10]

/-- The session with the server that has accepted the client on descriptor 5. -/
def Session.fresh : Session := Session.start Server.serving (Vector.replicate inputLen 0)

lemma line_legal : SessionLegal 5 Session.fresh (.line hiLine) :=
  ⟨rfl, by decide, by decide⟩

/-- The line is on its way, with its terminator. -/
lemma fresh_line :
    ∃ r, sessionStep 4 5 (.line hiLine) Session.fresh = some r ∧
      r.1.server = Server.serving ∧ r.1.client.reading = true ∧ r.1.client.count = 0 ∧
      r.1.toClient = [] ∧ [104, 105, 10, 0] <+: r.1.toServer := by
  obtain ⟨input, hsend, hinput⟩ := sendLine_spec (c := Session.fresh.client) line_legal.2.2
  rw [sessionStep, hsend]
  refine ⟨_, rfl, rfl, rfl, rfl, rfl, ?_⟩
  show [104, 105, 10, 0] <+: [] ++ sentBy [.send input.toList]
  simp only [sentBy, List.flatMap_cons, List.flatMap_nil, List.append_nil, List.nil_append, hinput]
  exact ⟨_, rfl⟩

/-- The server reads the line, up to its terminator. -/
def SessionStep.hiRead : SessionStep := .serverIn [104, 105, 10, 0] (by decide) (by decide)

/-- The server has read the line, up to its terminator, and answered it. -/
lemma fresh_answered (hserver : s.server = Server.serving) :
    ∃ r, sessionStep 4 5 .hiRead s = some r ∧ r.1.client = s.client ∧
      r.1.toClient = s.toClient ++ [72, 73, 10] ∧ r.1.server.Blank ∧
      r.1.server.kernel.interest 5 = some (epollOut, 5) := by
  have hanswer : written 5 (answer 4 5 (Entry.sends 5 [104, 105, 10, 0] (by decide)
      (by decide))) = [72, 73, 10] := by
    rw [answer_sends (by decide)]
    decide
  have hblank : s.server.Blank := by
    rw [hserver]
    exact serving_blank
  have hout : (kernelAfter 4 5 (Entry.sends 5 [104, 105, 10, 0] (by decide) (by decide))
      s.server.kernel).interest 5 = some (epollOut, 5) := by
    rw [hserver]
    rfl
  rw [SessionStep.hiRead, sessionStep, handleEntry_blank hblank]
  refine ⟨_, rfl, rfl, ?_, hblank, hout⟩
  show s.toClient ++ written 5 _ = _
  rw [hanswer]

/-- The server has written its whole buffer. -/
lemma fresh_zeros (hblank : s.server.Blank) :
    ∃ r, sessionStep 4 5 .serverOut s = some r ∧ r.1.client = s.client ∧
      r.1.toClient = s.toClient ++ List.replicate bufferMaxLen 0 := by
  rw [sessionStep, handleEntry_blank hblank]
  refine ⟨_, rfl, rfl, ?_⟩
  show s.toClient ++ written 5 _ = _
  rw [answer_writable (by decide)]
  simp [written, writesOn]

/-- The answer, and zeros: as much as the client asks for. -/
def fullAnswer : List UInt8 := [72, 73, 10] ++ List.replicate 1021 0

lemma length_fullAnswer : fullAnswer.length = maxLine := by
  rw [fullAnswer, List.length_append, List.length_replicate]
  rfl

/-- The client reads as much as it asks for. -/
def SessionStep.fullRead : SessionStep :=
  .clientRead (.data fullAnswer (length_fullAnswer ▸ Nat.succ_pos _) length_fullAnswer.le)

/-- A round that goes well: the client sends "hi", the server reads it and answers "HI" and zeros,
and the first `read` of the client is full. -/
theorem agreed_iff_firstFull_line :
    Throughout (sessionStep 4 5) (RoundRight 5)
      [.line hiLine, .hiRead, .serverOut, .fullRead] Session.fresh := by
  have hround : Allowed (sessionStep 4 5) (fun s l => SessionLegal 5 s l ∧ FirstFull s l)
      [.line hiLine, .hiRead, .serverOut, .fullRead] Session.fresh := by
    obtain ⟨r₁, hr₁, hserver, hreading, hcount, htoClient, hsent⟩ := fresh_line
    obtain ⟨r₂, hr₂, hclient₂, htoClient₂, hblank, hout⟩ := fresh_answered hserver
    obtain ⟨r₃, hr₃, hclient₃, htoClient₃⟩ := fresh_zeros hblank
    have hclient : r₃.1.client = r₁.1.client := hclient₃.trans hclient₂
    refine allowed_cons.2 ⟨⟨line_legal, trivial⟩, fun r hr => ?_⟩
    obtain rfl := Option.some.inj (hr₁.symm.trans hr)
    refine allowed_cons.2 ⟨⟨⟨hsent, _, by rw [hserver]; exact serving_interest, by decide⟩,
      trivial⟩, fun r hr => ?_⟩
    obtain rfl := Option.some.inj (hr₂.symm.trans hr)
    refine allowed_cons.2 ⟨⟨⟨_, hout, by decide⟩, trivial⟩, fun r hr => ?_⟩
    obtain rfl := Option.some.inj (hr₃.symm.trans hr)
    refine allowed_cons.2 ⟨⟨⟨?_, ?_⟩, ?_, ?_⟩, fun _ _ => allowed_nil _ _⟩
    · rw [hclient, hreading]
    · rw [htoClient₃, htoClient₂, htoClient, List.nil_append]
      refine (List.prefix_append_right_inj _).2 ⟨List.replicate 3075 0, ?_⟩
      rw [List.replicate_append_replicate]
    · rw [hclient, hcount]
    · exact length_fullAnswer
  exact (agreed_iff_firstFull 4 5 (by decide) Server.serving serving_blank _ (Or.inr rfl)
    serving_interest _ _ (hround.imp fun _ _ => And.left)).2 (hround.imp fun _ _ => And.right)

/-- The client sends "hi", the server reads the four bytes of it and answers "HI", and the
client reads that and takes it for the whole answer; the server has 96 bytes of the line left,
and zeros to write. -/
theorem not_agreed :
    ¬ ∀ ls : List SessionStep,
      Allowed (sessionStep 4 5) (SessionLegal 5) ls Session.fresh →
        Throughout (sessionStep 4 5) (RoundRight 5) ls Session.fresh := by
  intro h
  obtain ⟨r₁, hr₁, hserver, hreading, -, hclient, hsent⟩ := fresh_line
  obtain ⟨r₂, hr₂, hclient₂, htoClient₂, -⟩ := fresh_answered hserver
  have hlegal : Allowed (sessionStep 4 5) (SessionLegal 5)
      [.line hiLine, .hiRead,
        .clientRead (.data [72, 73, 10] (by decide) (by decide))] Session.fresh := by
    refine allowed_cons.2 ⟨line_legal, fun r hr => ?_⟩
    obtain rfl := Option.some.inj (hr₁.symm.trans hr)
    refine allowed_cons.2 ⟨⟨hsent, _, by rw [hserver]; exact serving_interest, by decide⟩,
      fun r hr => ?_⟩
    obtain rfl := Option.some.inj (hr₂.symm.trans hr)
    refine allowed_cons.2 ⟨⟨?_, ?_⟩, fun _ _ => allowed_nil _ _⟩
    · rw [hclient₂, hreading]
    · rw [htoClient₂, hclient, List.nil_append]
      exact List.prefix_rfl
  have hfull := (throughout_roundRight_iff (by decide)
    (sessionInv_start serving_blank (Or.inr rfl) serving_interest) hlegal).1 (h _ hlegal)
  have hlen := ((hfull.2 r₁ hr₁).2 r₂ hr₂).1.2
  cases hlen

end LibeventLearn.EpollDemo
