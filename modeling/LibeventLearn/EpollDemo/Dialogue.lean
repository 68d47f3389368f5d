import LibeventLearn.EpollDemo.ClientLoop
import LibeventLearn.EpollDemo.Protocol

/-!
# The client and the server

The two programs together: `epollClient` on one connection of `epollServer`, which serves any other
clients meanwhile, and the bytes that are on their way between the two.  Whatever the order of their
steps is, what the client has read is the beginning of the answers to pieces of what it has sent.
Behind the answer to a piece there are 4096 zeros, and the client prints what it has read up to the
first zero; so what it prints for a line is never more than a part of the answer to one piece.
-/

namespace LibeventLearn.EpollDemo

open Lib Epoll

/-- The programs, and the bytes between them. -/
structure Dialogue where
  server : Server
  client : Client
  /-- What has been sent by the client and not yet read. -/
  up : List UInt8
  /-- What has been written to the client and not yet read. -/
  down : List UInt8

/-- A step of one of the programs. -/
inductive Turn where
  /-- `fgets` returns a line, and `send` takes so many bytes of the array. -/
  | line (line : List UInt8) (taken : ℕ)
  /-- The client calls `read`. -/
  | read (result : ReadResult maxLine)
  /-- The server handles a batch. -/
  | batch (es : List (Entry × Io))

/-- What is done. -/
inductive TurnAct where
  | server (a : Call)
  | client (a : ClientCall)
  /-- `send` has taken these bytes. -/
  | sent (bytes : List UInt8)
  /-- `read` of the client has returned these bytes. -/
  | got (bytes : List UInt8)

/-- What the server has done. -/
def calls (h : List TurnAct) : List Call :=
  h.filterMap fun a => match a with
    | .server a => some a
    | _ => none

/-- What the client has sent. -/
def sentBytes (h : List TurnAct) : List UInt8 :=
  h.flatMap fun a => match a with
    | .sent bytes => bytes
    | _ => []

/-- What the client has read. -/
def gotBytes (h : List TurnAct) : List UInt8 :=
  h.flatMap fun a => match a with
    | .got bytes => bytes
    | _ => []

/-- One step; `c` is the descriptor under which the server has the client. -/
def turnStep (listenFd c : ℤ) : Turn → Dialogue → Option (Dialogue × List TurnAct)
  | .line line taken, d => (sendLine line d.client).map fun r =>
      let bytes := r.1.input.toList.take taken
      ({ d with client := r.1, up := d.up ++ bytes }, .sent bytes :: r.2.map .client)
  | .read result, d => (readAnswer result d.client).map fun r =>
      ({ d with client := r.1, down := d.down.drop result.bytes.length },
        .got result.bytes :: r.2.map .client)
  | .batch es, d => (handleBatch listenFd es d.server).map fun r =>
      ({ d with
          server := r.1
          up := d.up.drop (received c r.2).length
          down := d.down ++ written c r.2 },
        r.2.map .server)

/-- The client keeps to its loops, a batch is one that may be, and what is read on either side is
the beginning of what is on its way there. -/
def TurnLegal (listenFd c : ℤ) (d : Dialogue) : Turn → Prop
  | .line line _ => ClientLegal d.client (.line line)
  | .read result => ClientLegal d.client (.read result) ∧ result.bytes <+: d.down
  | .batch es => BatchLegal listenFd d.server es ∧
      ∀ r, handleBatch listenFd es d.server = some r → received c r.2 <+: d.up

/-- The client has not been accepted yet. -/
def Dialogue.start (s : Server) (input : Vector UInt8 inputLen) : Dialogue where
  server := s
  client := Client.start input
  up := []
  down := []

variable {listenFd c : ℤ} {s : Server} {cl : Client} {h h' : List TurnAct} {text said : List UInt8}
  {r : Client × List ClientCall} {d : Dialogue}

@[simp] lemma calls_append : calls (h ++ h') = calls h ++ calls h' := List.filterMap_append

@[simp] lemma sentBytes_append : sentBytes (h ++ h') = sentBytes h ++ sentBytes h' :=
  List.flatMap_append

@[simp] lemma gotBytes_append : gotBytes (h ++ h') = gotBytes h ++ gotBytes h' :=
  List.flatMap_append

@[simp] lemma calls_sent (bytes : List UInt8) : calls (.sent bytes :: h) = calls h := rfl

@[simp] lemma sentBytes_sent (bytes : List UInt8) :
    sentBytes (.sent bytes :: h) = bytes ++ sentBytes h := rfl

@[simp] lemma gotBytes_sent (bytes : List UInt8) : gotBytes (.sent bytes :: h) = gotBytes h := rfl

@[simp] lemma calls_got (bytes : List UInt8) : calls (.got bytes :: h) = calls h := rfl

@[simp] lemma sentBytes_got (bytes : List UInt8) : sentBytes (.got bytes :: h) = sentBytes h := rfl

@[simp] lemma gotBytes_got (bytes : List UInt8) :
    gotBytes (.got bytes :: h) = bytes ++ gotBytes h := rfl

@[simp] lemma calls_map_server (as : List Call) : calls (as.map .server) = as := by
  rw [calls, List.filterMap_map]
  exact List.filterMap_some

@[simp] lemma sentBytes_map_server (as : List Call) : sentBytes (as.map .server) = [] := by
  rw [sentBytes, List.flatMap_map]
  exact List.flatMap_eq_nil_iff.2 fun _ _ => rfl

@[simp] lemma gotBytes_map_server (as : List Call) : gotBytes (as.map .server) = [] := by
  rw [gotBytes, List.flatMap_map]
  exact List.flatMap_eq_nil_iff.2 fun _ _ => rfl

@[simp] lemma calls_map_client (as : List ClientCall) : calls (as.map .client) = [] := by
  rw [calls, List.filterMap_map]
  exact List.filterMap_eq_nil_iff.2 fun _ _ => rfl

@[simp] lemma sentBytes_map_client (as : List ClientCall) : sentBytes (as.map .client) = [] := by
  rw [sentBytes, List.flatMap_map]
  exact List.flatMap_eq_nil_iff.2 fun _ _ => rfl

@[simp] lemma gotBytes_map_client (as : List ClientCall) : gotBytes (as.map .client) = [] := by
  rw [gotBytes, List.flatMap_map]
  exact List.flatMap_eq_nil_iff.2 fun _ _ => rfl

/-! ## What the client prints -/

variable {got : List UInt8} {result : ReadResult maxLine}

/-- While it reads, the client has the last of what it has read at the front of `recvline`. -/
def Heard (cl : Client) (got : List UInt8) : Prop :=
  cl.reading = true →
    ∃ said, said.length = cl.count ∧ said <+: cl.recvline.toList ∧ said <:+ got

/-- What is printed is what a part of what was read is to a reader of text. -/
def Printed (got : List UInt8) (as : List ClientCall) : Prop :=
  ∀ text, .print text ∈ as → ∃ part, part <:+: got ∧ text = cText part

lemma printAnswer_eq (hlen : said.length = cl.count) (hpre : said <+: cl.recvline.toList)
    (hr : printAnswer cl = some r) : r.1.reading = false ∧ r.2 = [.print (cText said)] := by
  simp only [printAnswer, Option.bind_eq_some_iff] at hr
  obtain ⟨recvline, hstore, text, htext, hr⟩ := hr
  obtain rfl := Option.some.inj hr
  obtain ⟨-, hlist⟩ := toList_of_store hstore
  rw [← hlen, ← List.prefix_iff_eq_take.1 hpre, List.append_assoc, List.singleton_append] at hlist
  rw [cString, hlist, strlen_append_zero, Option.map_some, Option.some.injEq] at htext
  have htake : ∀ l, cText said <+: said ++ l := fun l =>
    (List.takeWhile_prefix _).trans (List.prefix_append said l)
  rw [← List.prefix_iff_eq_take.1 (htake _)] at htext
  rw [htext]
  exact ⟨rfl, rfl⟩

/-- The answer is printed. -/
lemma printed_of_printAnswer (hlen : said.length = cl.count) (hpre : said <+: cl.recvline.toList)
    (hsuf : said <:+ got) (hr : printAnswer cl = some r) : Heard r.1 got ∧ Printed got r.2 := by
  obtain ⟨hreading, hprint⟩ := printAnswer_eq hlen hpre hr
  refine ⟨fun h => ?_, fun text htext => ⟨said, hsuf.isInfix, ?_⟩⟩
  · rw [hreading] at h
    cases h
  · rw [hprint, List.mem_singleton] at htext
    exact ClientCall.print.inj htext

/-- One `read` of the client. -/
lemma Heard.read (hh : Heard cl got) (hreading : cl.reading = true)
    (hr : readAnswer result cl = some r) :
    Heard r.1 (got ++ result.bytes) ∧ Printed (got ++ result.bytes) r.2 := by
  obtain ⟨said, hlen, hpre, hsuf⟩ := hh hreading
  cases result with
  | error =>
    obtain rfl := Option.some.inj hr
    exact ⟨fun h => absurd h Bool.false_ne_true, fun text htext => absurd htext List.not_mem_nil⟩
  | eof =>
    change Heard r.1 (got ++ []) ∧ Printed (got ++ []) r.2
    rw [List.append_nil]
    exact printed_of_printAnswer hlen hpre hsuf hr
  | data bytes hpos hle =>
    change Heard r.1 (got ++ bytes) ∧ Printed (got ++ bytes) r.2
    simp only [readAnswer, Option.bind_eq_some_iff] at hr
    obtain ⟨recvline, hstore, hr⟩ := hr
    obtain ⟨-, hlist⟩ := toList_of_store hstore
    -- what was read before and what is read now lie one behind the other
    have hlen' : (said ++ bytes).length = cl.count + bytes.length := by
      rw [List.length_append, hlen]
    have hpre' : said ++ bytes <+: recvline.toList := by
      rw [hlist, ← hlen, ← List.prefix_iff_eq_take.1 hpre]
      exact List.prefix_append _ _
    have hsuf' : said ++ bytes <:+ got ++ bytes := by
      obtain ⟨u, rfl⟩ := hsuf
      exact ⟨u, (List.append_assoc u said bytes).symm⟩
    split at hr
    · obtain rfl := Option.some.inj hr
      exact ⟨fun _ => ⟨_, hlen', hpre', hsuf'⟩, fun text htext => absurd htext List.not_mem_nil⟩
    · exact printed_of_printAnswer hlen' hpre' hsuf' hr

/-! ## The two programs together -/

/-- What is between the two programs, and what they have done. -/
structure Talks (listenFd c : ℤ) (x : Dialogue × List TurnAct) : Prop where
  server : ∃ f, Shows listenFd x.1.server f ∧
    Trace ConnStep .closed (eventsAt c ((calls x.2).filterMap Call.event)) (f c)
  up : received c (calls x.2) ++ x.1.up = sentBytes x.2
  down : gotBytes x.2 ++ x.1.down = written c (calls x.2)
  heard : Heard x.1.client (gotBytes x.2)
  printed : ∀ text, .client (.print text) ∈ x.2 →
    ∃ part, part <:+: gotBytes x.2 ∧ text = cText part

lemma talks_start {f : ℤ → Phase} (hs : Shows listenFd s f) (hc : s.kernel.isOpen c = false)
    (input : Vector UInt8 inputLen) : Talks listenFd c (Dialogue.start s input, []) := by
  refine ⟨⟨f, hs, ?_⟩, rfl, rfl, fun h => absurd h Bool.false_ne_true,
    fun _ h => absurd h List.not_mem_nil⟩
  have hne : c ≠ listenFd := by
    rintro rfl
    rw [s.kernel.open_of_registered _ (by rw [hs.listening]; exact Option.some_ne_none _)] at hc
    cases hc
  have hshow := hs.client c hne
  rw [hc] at hshow
  rw [hshow.of_closed.1]
  exact .nil _

namespace Talks

variable {bytes got' : List UInt8} {as : List ClientCall} {up : List UInt8} {a : TurnAct}

/-- What has been printed is still a part of what has been read. -/
lemma printed_append (ht : Talks listenFd c (d, h)) (hgot : gotBytes h <+: got')
    (has : Printed got' as) (ha : ∀ text, a ≠ .client (.print text)) :
    ∀ text, .client (.print text) ∈ h ++ a :: as.map .client →
      ∃ part, part <:+: got' ∧ text = cText part := by
  intro text htext
  rcases List.mem_append.1 htext with htext | htext
  · obtain ⟨part, hpart, heq⟩ := ht.printed text htext
    exact ⟨part, hpart.trans hgot.isInfix, heq⟩
  rcases List.mem_cons.1 htext with heq | htext
  · exact absurd heq.symm (ha text)
  · obtain ⟨a', ha', heq⟩ := List.mem_map.1 htext
    obtain rfl := TurnAct.client.inj heq
    exact has text ha'

/-- The client sends a line. -/
lemma line (ht : Talks listenFd c (d, h)) (hheard : Heard cl (gotBytes h))
    (has : Printed (gotBytes h) as) :
    Talks listenFd c ({ d with client := cl, up := d.up ++ bytes },
      h ++ .sent bytes :: as.map .client) := by
  have hcalls : calls (h ++ .sent bytes :: as.map .client) = calls h := by simp
  have hgot : gotBytes (h ++ .sent bytes :: as.map .client) = gotBytes h := by simp
  have hsent : sentBytes (h ++ .sent bytes :: as.map .client) = sentBytes h ++ bytes := by simp
  refine ⟨?_, ?_, ?_, ?_, ?_⟩
  · rw [hcalls]
    exact ht.server
  · rw [hcalls, hsent, ← ht.up, List.append_assoc]
  · rw [hcalls, hgot]
    exact ht.down
  · rw [hgot]
    exact hheard
  · rw [hgot]
    exact ht.printed_append (List.prefix_refl _) has fun text heq => by cases heq

/-- The client reads. -/
lemma read (ht : Talks listenFd c (d, h)) (hdown : bytes <+: d.down)
    (hheard : Heard cl (gotBytes h ++ bytes)) (has : Printed (gotBytes h ++ bytes) as) :
    Talks listenFd c ({ d with client := cl, down := d.down.drop bytes.length },
      h ++ .got bytes :: as.map .client) := by
  have hcalls : calls (h ++ .got bytes :: as.map .client) = calls h := by simp
  have hgot : gotBytes (h ++ .got bytes :: as.map .client) = gotBytes h ++ bytes := by simp
  have hsent : sentBytes (h ++ .got bytes :: as.map .client) = sentBytes h := by simp
  refine ⟨?_, ?_, ?_, ?_, ?_⟩
  · rw [hcalls]
    exact ht.server
  · rw [hcalls, hsent]
    exact ht.up
  · obtain ⟨rest, hrest⟩ := hdown
    rw [hcalls, hgot, ← ht.down, ← hrest, List.drop_left, List.append_assoc]
  · rw [hgot]
    exact hheard
  · rw [hgot]
    exact ht.printed_append (List.prefix_append _ _) has fun text heq => by cases heq

/-- The server handles a batch. -/
lemma batch (ht : Talks listenFd c (d, h)) {es : List (Entry × Io)}
    (hl : BatchLegal listenFd d.server es) {r : Server × List Call}
    (hr : handleBatch listenFd es d.server = some r) (hup : received c r.2 <+: d.up) :
    Talks listenFd c ({ d with
      server := r.1
      up := d.up.drop (received c r.2).length
      down := d.down ++ written c r.2 }, h ++ r.2.map .server) := by
  have hcalls : calls (h ++ r.2.map .server) = calls h ++ r.2 := by simp
  have hgot : gotBytes (h ++ r.2.map .server) = gotBytes h := by simp
  have hsent : sentBytes (h ++ r.2.map .server) = sentBytes h := by simp
  obtain ⟨f, hs, htrace⟩ := ht.server
  obtain ⟨f', htrace', hs'⟩ := hs.batch hl hr
  refine ⟨⟨f', hs', ?_⟩, ?_, ?_, ?_, ?_⟩
  · rw [hcalls, List.filterMap_append, eventsAt, List.filterMap_append]
    exact htrace.append (htrace'.atKey c)
  · obtain ⟨rest, hrest⟩ := hup
    rw [hcalls, hsent, received_append, ← ht.up, ← hrest, List.drop_left, List.append_assoc]
  · rw [hcalls, hgot, written_append, ← ht.down, List.append_assoc]
  · rw [hgot]
    exact ht.heard
  · rw [hgot]
    intro text htext
    refine ht.printed text ((List.mem_append.1 htext).resolve_right fun hmem => ?_)
    obtain ⟨a, -, heq⟩ := List.mem_map.1 hmem
    cases heq

/-- **One turn.** -/
lemma turn (ht : Talks listenFd c (d, h)) {l : Turn} (hl : TurnLegal listenFd c d l)
    {q : Dialogue × List TurnAct} (hq : turnStep listenFd c l d = some q) :
    Talks listenFd c (q.1, h ++ q.2) := by
  cases l with
  | line line taken =>
    obtain ⟨r, hr, rfl⟩ := Option.map_eq_some_iff.1 hq
    obtain ⟨input, hsend, -⟩ := sendLine_spec (c := d.client) hl.2.2
    obtain rfl := Option.some.inj (hsend.symm.trans hr)
    -- nothing of the answer has been read
    refine ht.line (fun _ => ⟨[], rfl, List.nil_prefix, List.nil_suffix⟩) fun text htext => ?_
    cases List.mem_singleton.1 htext
  | read result =>
    obtain ⟨r, hr, rfl⟩ := Option.map_eq_some_iff.1 hq
    obtain ⟨hheard, hprinted⟩ := ht.heard.read hl.1 hr
    exact ht.read hl.2 hheard hprinted
  | batch es =>
    obtain ⟨r, hr, rfl⟩ := Option.map_eq_some_iff.1 hq
    exact ht.batch hl.1 hr (hl.2 r hr)

end Talks

/-! ## From end to end -/

lemma flatten_piecesOn (h : List Call) : (piecesOn c h).flatten = received c h := by
  induction h with
  | nil => rfl
  | cons a h ih =>
    have hcons : received c (a :: h) = received c [a] ++ received c h := received_append [a] h
    rw [piecesOn_cons, List.flatten_append, ih, hcons]
    congr 1
    cases a with
    | read fd bytes =>
      by_cases hfd : fd = c <;> by_cases hb : bytes = [] <;> simp [piecesOn, received, hfd, hb]
    | _ => rfl

/-- What is due for pieces. -/
lemma flatten_flatMap_reply (pieces : List (List UInt8)) :
    (pieces.flatMap fun bytes => [reply bytes, wholeBuffer]).flatten =
      zeroEnded bufferMaxLen (pieces.map reply) := by
  induction pieces with
  | nil => rfl
  | cons bytes pieces ih =>
    rw [List.flatMap_cons, List.flatten_append, ih, List.map_cons, zeroEnded, zeroEnded,
      List.flatMap_cons]
    simp [wholeBuffer]

/-- The pieces that a client's machine goes through are short. -/
lemma length_piece {a b : Phase} {es : List ConnEvent} (ht : Trace ConnStep a es b)
    {bytes : List UInt8} (hb : .received bytes ∈ es) :
    0 < bytes.length ∧ bytes.length ≤ readLen := by
  induction ht with
  | nil => exact absurd hb List.not_mem_nil
  | cons hstep _ ih =>
    rcases List.mem_cons.1 hb with rfl | hb
    · cases hstep with
      | received hpos hle => exact ⟨hpos, hle⟩
    · exact ih hb

/-- A piece is read by a call. -/
lemma received_mem_eventsAt {h : List Call} {bytes : List UInt8} (hb : bytes ∈ piecesOn c h) :
    .received bytes ∈ eventsAt c (h.filterMap Call.event) := by
  obtain ⟨a, ha, hpiece⟩ := List.mem_filterMap.1 hb
  cases a with
  | read fd bytes' =>
    simp only [Option.ite_none_right_eq_some, Option.some.injEq] at hpiece
    obtain ⟨⟨rfl, hne⟩, rfl⟩ := hpiece
    obtain ⟨b, rest, rfl⟩ := List.exists_cons_of_ne_nil hne
    exact List.mem_filterMap.2 ⟨(fd, .received (b :: rest)),
      List.mem_filterMap.2 ⟨_, ha, rfl⟩, if_pos rfl⟩
  | _ => cases hpiece

lemma length_reply_le (bytes : List UInt8) : (reply bytes).length ≤ bytes.length := by
  rw [reply, List.length_map]
  exact (List.takeWhile_prefix _).length_le

/-- What the two programs have done by some time: the server has read short pieces, what the client
has read is the beginning of the answers, each of which is followed by 4096 zeros, and what it has
printed is in each case a part of one answer. -/
structure Answered (c : ℤ) (h : List TurnAct) : Prop where
  short : ∀ bytes ∈ piecesOn c (calls h), 0 < bytes.length ∧ bytes.length ≤ readLen
  pieces : (piecesOn c (calls h)).flatten <+: sentBytes h
  got : gotBytes h <+: zeroEnded bufferMaxLen ((piecesOn c (calls h)).map reply)
  printed : ∀ text, .client (.print text) ∈ h →
    text = [] ∨ ∃ bytes ∈ piecesOn c (calls h), text <:+: reply bytes

/-- So no answer that is printed is longer than a piece. -/
lemma Answered.length_le (ha : Answered c h) {text : List UInt8}
    (htext : .client (.print text) ∈ h) : text.length ≤ readLen := by
  rcases ha.printed text htext with rfl | ⟨bytes, hb, hin⟩
  · exact Nat.zero_le _
  · exact hin.length_le.trans ((length_reply_le bytes).trans (ha.short bytes hb).2)

lemma Talks.answered (ht : Talks listenFd c (d, h)) : Answered c h := by
  obtain ⟨f, hs, htrace⟩ := ht.server
  have hgot : gotBytes h <+: zeroEnded bufferMaxLen ((piecesOn c (calls h)).map reply) := by
    have hsettle := htrace.settle fun _ _ _ hstep => ConnStep.settle hstep
    rw [due_eventsAt, paid_eventsAt] at hsettle
    have hflat := congrArg List.flatten hsettle
    rw [List.flatten_append, flatten_flatMap_reply, List.flatten_append] at hflat
    have hdown : gotBytes h ++ d.down = (writesOn c (calls h)).flatten := ht.down
    rw [← hdown] at hflat
    exact ⟨d.down ++ ((f c).owed).flatten, by rw [← List.append_assoc, ← hflat]; rfl⟩
  refine ⟨fun bytes hb => length_piece htrace (received_mem_eventsAt hb), ?_, hgot,
    fun text htext => ?_⟩
  · rw [flatten_piecesOn]
    exact ⟨d.up, ht.up⟩
  · obtain ⟨part, hpart, rfl⟩ := ht.printed text htext
    refine (cText_of_infix_zeroEnded (by decide) (fun t ht => ?_)
      (hpart.trans hgot.isInfix)).imp_right fun hin => ?_
    · obtain ⟨bytes, -, rfl⟩ := List.mem_map.1 ht
      exact zero_notMem_map_toupper (zero_notMem_cText bytes)
    · obtain ⟨t, ht, hin⟩ := hin
      obtain ⟨bytes, hb, rfl⟩ := List.mem_map.1 ht
      exact ⟨bytes, hb, hin⟩

/-- **The answers from end to end.**  The client connects at any time of the life of the server, and
from then on the two programs take their turns in any order, whatever other clients do. -/
theorem dialogue_answered (listenFd c : ℤ) (bs : List (List (Entry × Io)))
    (hbs : Allowed (handleBatch listenFd) (BatchLegal listenFd) bs (Server.start listenFd))
    (s : Server × List Call) (hs : exec (handleBatch listenFd) bs (Server.start listenFd) = some s)
    (hc : s.1.kernel.isOpen c = false) (input : Vector UInt8 inputLen) (ls : List Turn)
    (hls : Allowed (turnStep listenFd c) (TurnLegal listenFd c) ls (Dialogue.start s.1 input))
    (q : Dialogue × List TurnAct)
    (hq : exec (turnStep listenFd c) ls (Dialogue.start s.1 input) = some q) :
    Answered c q.2 ∧ ∀ text, .client (.print text) ∈ q.2 → text.length ≤ readLen := by
  obtain ⟨s', f, hs', -, hshows⟩ := simulates_start hbs
  obtain rfl := Option.some.inj (hs'.symm.trans hs)
  have ht := exec_inv_record (Talks listenFd c) (fun _ _ _ _ ht hl hr => ht.turn hl hr)
    (talks_start hshows hc input) hls hq
  exact ⟨ht.answered, fun text => ht.answered.length_le⟩

/-- A short answer is printed up to its first zero. -/
lemma exists_readAnswer_short (cl : Client) (bytes : List UInt8) (hc : cl.count = 0)
    (hpos : 0 < bytes.length) (hlt : bytes.length < maxLine) :
    ∃ r, readAnswer (.data bytes hpos hlt.le) cl = some r ∧ r.2 = [.print (cText bytes)] := by
  have hfit : cl.count + bytes.length ≤ maxLine + 1 := by omega
  rw [readAnswer, store_of_le hfit, Option.bind_some, if_neg hlt.ne]
  obtain ⟨recvline, text, hprint⟩ := printAnswer_spec (c := { cl with
    recvline := blit cl.recvline cl.count bytes hfit, count := cl.count + bytes.length })
    (by show cl.count + bytes.length ≤ maxLine; omega)
  have hlen : bytes.length = cl.count + bytes.length := by omega
  have hpre : bytes <+: (blit cl.recvline cl.count bytes hfit).toList := by
    rw [toList_blit, hc, List.take_zero, List.nil_append]
    exact List.prefix_append _ _
  exact ⟨_, hprint, (printAnswer_eq hlen hpre hprint).2⟩

/-- The client on descriptor 5, after its line has been read and answered, but before it reads. -/
def Dialogue.answered (input : Vector UInt8 inputLen) : Dialogue where
  server := { Server.serving with
    kernel := kernelAfter 4 5 (Entry.sends 5 [104, 105, 10] (by decide) (by decide))
      Server.serving.kernel }
  client := { Client.start (Vector.replicate _ 0) with input := input, reading := true }
  up := []
  down := [72, 73, 10]

/-- A line is sent and answered, and the answer is printed. -/
theorem dialogue_answered_hi :
    ∃ q, exec (turnStep 4 5) [.batch [Entry.arrives 4 5 true], .line [104, 105, 10] 3,
          .batch [Entry.sends 5 [104, 105, 10] (by decide) (by decide)],
          .read (.data [72, 73, 10] (by decide) (by decide))]
        (Dialogue.start (Server.start 4) (Vector.replicate _ 0)) = some q ∧
      (Answered 5 q.2 ∧ ∀ text, .client (.print text) ∈ q.2 → text.length ≤ readLen) ∧
      .client (.print [72, 73, 10]) ∈ q.2 := by
  have hstep₁ : turnStep 4 5 (.batch [Entry.arrives 4 5 true])
      (Dialogue.start (Server.start 4) (Vector.replicate _ 0)) =
        some (Dialogue.start Server.serving (Vector.replicate _ 0),
          [.server (.accept 4 (some 5))]) := by
    rw [turnStep, Dialogue.start, handleBatch_arrives]
    rfl
  obtain ⟨input, hsend, hinput⟩ := @sendLine_spec (Client.start (Vector.replicate inputLen 0))
    [104, 105, 10] (by decide)
  have hstep₂ : turnStep 4 5 (.line [104, 105, 10] 3)
      (Dialogue.start Server.serving (Vector.replicate _ 0)) =
        some ({ Dialogue.answered input with server := Server.serving, up := [104, 105, 10],
                                             down := [] },
          [.sent [104, 105, 10], .client (.send input.toList)]) := by
    rw [turnStep, Dialogue.start, hsend, Option.map_some]
    simp only [hinput]
    rfl
  have hbatch : handleBatch 4 [Entry.sends 5 [104, 105, 10] (by decide) (by decide)]
      Server.serving = some ((Dialogue.answered input).server,
        answer 4 5 (Entry.sends 5 [104, 105, 10] (by decide) (by decide))) :=
    handleBatch_singleton serving_blank _
  have hanswer : answer 4 5 (Entry.sends 5 [104, 105, 10] (by decide) (by decide)) =
      [.read 5 [104, 105, 10], .print [104, 105, 10], .write 5 [72, 73, 10],
        .print [72, 73, 10]] := by
    rw [answer_sends (by decide)]
    rfl
  rw [hanswer] at hbatch
  have hstep₃ : turnStep 4 5 (.batch [Entry.sends 5 [104, 105, 10] (by decide) (by decide)])
      { Dialogue.answered input with server := Server.serving, up := [104, 105, 10], down := [] } =
        some (Dialogue.answered input, [.server (.read 5 [104, 105, 10]),
          .server (.print [104, 105, 10]), .server (.write 5 [72, 73, 10]),
          .server (.print [72, 73, 10])]) := by
    rw [turnStep, hbatch]
    rfl
  obtain ⟨r, hr, hprint⟩ := exists_readAnswer_short (Dialogue.answered input).client [72, 73, 10]
    rfl (by decide) (by decide)
  have hstep₄ : turnStep 4 5 (.read (.data [72, 73, 10] (by decide) (by decide)))
      (Dialogue.answered input) = some ({ Dialogue.answered input with client := r.1, down := [] },
        [.got [72, 73, 10], .client (.print [72, 73, 10])]) := by
    rw [turnStep, hr, Option.map_some, hprint]
    rfl
  have hrun := exec_cons_eq_some.2 ⟨_, _, hstep₁, exec_cons_eq_some.2 ⟨_, _, hstep₂,
    exec_cons_eq_some.2 ⟨_, _, hstep₃, exec_cons_eq_some.2 ⟨_, _, hstep₄, exec_nil _, rfl⟩, rfl⟩,
    rfl⟩, rfl⟩
  refine ⟨_, hrun, dialogue_answered 4 5 [] trivial (Server.start 4, []) rfl rfl _ _ ?_ _ hrun,
    by simp⟩
  refine ⟨⟨(shows_start 4).arrives_legal rfl true, fun r hr => ?_⟩, fun r hr => ?_⟩
  · rw [handleBatch_arrives] at hr
    obtain rfl := Option.some.inj hr
    exact List.nil_prefix
  obtain rfl := Option.some.inj (hstep₁.symm.trans hr)
  refine ⟨⟨rfl, by decide, by decide⟩, fun r hr => ?_⟩
  obtain rfl := Option.some.inj (hstep₂.symm.trans hr)
  refine ⟨⟨client_legal (by decide) serving_interest (by decide) fun _ => rfl, fun r hr => ?_⟩,
    fun r hr => ?_⟩
  · obtain rfl := Option.some.inj (hbatch.symm.trans hr)
    exact List.prefix_refl _
  obtain rfl := Option.some.inj (hstep₃.symm.trans hr)
  exact ⟨⟨rfl, List.prefix_refl _⟩, fun _ _ => trivial⟩

end LibeventLearn.EpollDemo
