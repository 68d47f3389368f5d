import LibeventLearn.EpollDemo.Isolation

/-!
# The replies to one client

A client is answered twice for each piece of its stream: with the piece in upper case by the
`EPOLLIN` branch, and with the whole blank buffer by the `EPOLLOUT` branch, which is what puts
the client back under `EPOLLIN`.  So what it gets is what it sent, in upper case, exactly as
long as its `EPOLLOUT` is never handled.
-/

namespace LibeventLearn.EpollDemo

open Lib Epoll

variable {listenFd head c : ℤ} {l : Entry × Io} {s : Server} {h : List Call}

/-- The body of the inner loop, for a run of entries that come with the descriptor at the head
of their batch. -/
def entryStep (listenFd : ℤ) (l : ℤ × Entry × Io) (s : Server) : Option (Server × List Call) :=
  handleEntry listenFd l.1 l.2 s

/-- The bytes read from a descriptor. -/
def received (c : ℤ) (h : List Call) : List UInt8 :=
  h.flatMap fun a => match a with
    | .read fd bytes => if fd = c then bytes else []
    | _ => []

/-- The bytes passed to `write` on a descriptor. -/
def written (c : ℤ) (h : List Call) : List UInt8 := (writesOn c h).flatten

/-- The client is registered under `EPOLLIN`. -/
def UnderIn (c : ℤ) (s : Server) : Prop :=
  ∃ m, s.kernel.interest c = some (m, c) ∧ m.has epollIn = true

/-- What is expected of each step: a client that is under `EPOLLIN` has got what it sent, in
upper case.  The second component of a state is the record of all calls. -/
def UpperEchoed (c : ℤ) (_ : Server × List Call) (_ : ℤ × Entry × Io)
    (r : (Server × List Call) × List Call) : Prop :=
  UnderIn c r.1.1 → written c r.1.2 = (received c r.1.2).map toupper

/-- Entries are those of registered descriptors, `accept` returns a new descriptor, and
`epoll_ctl` changes a registration it is asked to change. -/
def EntryLegal (listenFd : ℤ) (s : Server) (l : ℤ × Entry × Io) : Prop :=
  (l.1 ≠ listenFd → ∃ m, s.kernel.interest l.2.1.fd = some (m, l.2.1.fd) ∧
      Reportable m l.2.1.events) ∧
    (l.1 = listenFd → ∀ fd, l.2.2.accept = some fd → s.kernel.isOpen fd = false) ∧
    ∀ fd, l.2.2.ctl .mod fd = true

/-- The entry is handled by the `EPOLLOUT` branch, for the client `c`. -/
def Replies (listenFd c : ℤ) (l : ℤ × Entry × Io) : Prop :=
  l.1 ≠ listenFd ∧ l.2.1.fd = c ∧ l.2.1.events.has epollIn = false ∧
    l.2.1.events.has epollOut = true

/-! ## The record -/

@[simp] lemma received_append (h h' : List Call) :
    received c (h ++ h') = received c h ++ received c h' := List.flatMap_append

@[simp] lemma written_append (h h' : List Call) :
    written c (h ++ h') = written c h ++ written c h' := by
  simp [written, writesOn]

/-- The entry is not the client's, or is taken for the listening socket. -/
def Elsewhere (listenFd head c : ℤ) (l : Entry × Io) : Prop := head = listenFd ∨ l.1.fd ≠ c

lemma answer_elsewhere (hl : Elsewhere listenFd head c l) :
    received c (answer listenFd head l) = [] ∧ written c (answer listenFd head l) = [] := by
  unfold answer
  by_cases hh : head = listenFd
  · simp [hh, received, written, writesOn]
  have hfd : l.1.fd ≠ c := hl.resolve_left hh
  rw [if_neg hh]
  split
  · cases l.2.read with
    | data bytes hpos hle => simp [received, written, writesOn, hfd]
    | eof => simp [received, written, writesOn, hfd]
    | error => simp [received, written, writesOn, hfd]
  split
  · simp [received, written, writesOn, hfd]
  · exact ⟨rfl, rfl⟩

/-- The registration of the client changes with its own entries, and when its descriptor is
handed out. -/
lemma kernelAfter_interest_elsewhere (hl : Elsewhere listenFd head c l)
    (ha : head = listenFd → l.2.accept ≠ some c) {k : Kernel ℤ} :
    (kernelAfter listenFd head l k).interest c = k.interest c := by
  unfold kernelAfter
  by_cases hh : head = listenFd
  · have hac := ha hh
    rw [if_pos hh]
    cases hacc : l.2.accept with
    | none => rfl
    | some fd =>
      rw [hacc] at hac
      exact Kernel.epollCtl_interest_of_ne fun heq => hac (congrArg some heq.symm)
  have hfd : c ≠ l.1.fd := (hl.resolve_left hh).symm
  rw [if_neg hh]
  split
  · cases l.2.read with
    | data bytes hpos hle => exact Kernel.epollCtl_interest_of_ne hfd
    | eof =>
      simp only [Kernel.close_interest, Function.update_of_ne hfd]
      exact Kernel.epollCtl_interest_of_ne hfd
    | error => rfl
  split
  · exact Kernel.epollCtl_interest_of_ne hfd
  · rfl

/-! ## The invariant -/

/-- The masks a client is registered under while the server waits for its data. -/
def InMask (m : Mask) : Prop := m = epollIn ∨ m = epollIn ||| epollEt

lemma InMask.not_reportable {m bits : Mask} (hm : InMask m) (hr : Reportable m bits) :
    bits.has epollOut = false := by
  refine hr.has_eq_false ?_
  rcases hm with rfl | rfl <;> decide

/-- How the client is registered, given what it sent and got. -/
inductive Served (reg : Option (Mask × ℤ)) (c : ℤ) (sent got : List UInt8) : Prop
  | waiting (m : Mask) (hm : InMask m) (hreg : reg = some (m, c)) (heq : got = sent.map toupper)
  | replying (hreg : reg = some (epollOut, c)) (hle : sent.length ≤ got.length + readLen)
  | gone (hreg : reg = none) (heq : got = sent.map toupper)

/-- The invariant of the runs in which the client's `EPOLLOUT` is not handled. -/
def ServedInv (c : ℤ) (s : Server × List Call) : Prop :=
  s.1.Blank ∧ Served (s.1.kernel.interest c) c (received c s.2) (written c s.2)

lemma ServedInv.upperEchoed {s s' : Server × List Call} {l : ℤ × Entry × Io} {calls : List Call}
    (hs : ServedInv c s') : UpperEchoed c s l (s', calls) := by
  rintro ⟨m, hint, hm⟩
  rcases hs.2 with ⟨_, _, _, heq⟩ | ⟨hreg, _⟩ | ⟨_, heq⟩
  · exact heq
  · obtain rfl : m = epollOut := congrArg Prod.fst (Option.some.inj (hint.symm.trans hreg))
    cases hm
  · exact heq

/-- An entry that is not the client's, or is taken for the listening socket. -/
lemma served_elsewhere (hs : ServedInv c (s, h)) (hl : Elsewhere listenFd head c l)
    (hlegal : EntryLegal listenFd s (head, l)) :
    ServedInv c ({ s with kernel := kernelAfter listenFd head l s.kernel },
      h ++ answer listenFd head l) := by
  obtain ⟨hblank, hserved⟩ := hs
  obtain ⟨hrecv, hwrite⟩ := answer_elsewhere hl
  refine ⟨hblank, ?_⟩
  simp only [received_append, written_append, hrecv, hwrite, List.append_nil]
  by_cases hac : head = listenFd ∧ l.2.accept = some c
  swap
  · rw [kernelAfter_interest_elsewhere hl fun hh heq => hac ⟨hh, heq⟩]
    exact hserved
  -- the descriptor of the client is handed out anew, so it was not registered
  obtain ⟨hh, hac⟩ := hac
  have hclosed : s.kernel.isOpen c = false := hlegal.2.1 hh c hac
  have hnone : s.kernel.interest c = none := by
    by_contra hne
    rw [s.kernel.open_of_registered c hne] at hclosed
    cases hclosed
  have heq : written c h = (received c h).map toupper := by
    rcases hserved with ⟨_, _, _, heq⟩ | ⟨hreg, _⟩ | ⟨_, heq⟩
    · exact heq
    · simp only at hreg
      rw [hnone] at hreg
      exact absurd hreg (by simp)
    · exact heq
  have hreg : (kernelAfter listenFd head l s.kernel).interest c =
      if l.2.ctl .add c = true then some (epollIn ||| epollEt, c) else none := by
    simp only [kernelAfter, if_pos hh, hac, Kernel.epollCtl_add_interest, Kernel.opened_interest,
      Kernel.opened_isOpen, Function.update_self, hnone]
    simp
  rw [hreg]
  split
  · exact .waiting _ (Or.inr rfl) rfl heq
  · exact .gone rfl heq

/-- An entry of the client while the server waits for its data. -/
lemma served_waiting {m : Mask} (hm : InMask m) (hreg : s.kernel.interest c = some (m, c))
    (heq : written c h = (received c h).map toupper) (hblank : s.Blank)
    (hh : head ≠ listenFd) (hfd : l.1.fd = c) (hlegal : EntryLegal listenFd s (head, l)) :
    ServedInv c ({ s with kernel := kernelAfter listenFd head l s.kernel },
      h ++ answer listenFd head l) ∧ l.1.events.has epollOut = false := by
  have hout : l.1.events.has epollOut = false := by
    obtain ⟨m', hint, hbits⟩ := hlegal.1 hh
    rw [hfd, hreg] at hint
    obtain rfl : m = m' := congrArg Prod.fst (Option.some.inj hint)
    exact hm.not_reportable hbits
  have hopen : s.kernel.interest c ≠ none := by simp [hreg]
  refine ⟨⟨hblank, ?_⟩, hout⟩
  simp only [received_append, written_append, kernelAfter, answer, if_neg hh, hfd, hout,
    Bool.false_eq_true, if_false]
  split
  · cases l.2.read with
    | data bytes hpos hle =>
      refine .replying ?_ ?_
      · rw [Kernel.epollCtl_mod_interest, if_pos ⟨hlegal.2.2 c, hopen⟩]
      · simp only [received, written, writesOn, List.flatMap_cons, List.flatMap_nil, if_true,
          List.append_nil, List.length_append]
        have hlen := congrArg List.length heq
        rw [List.length_map] at hlen
        simp only [written, writesOn, received] at hlen
        omega
    | eof => exact .gone (by simp) (by simpa [received, written, writesOn] using heq)
    | error => exact .waiting m hm hreg (by simpa [received, written, writesOn] using heq)
  · exact .waiting m hm hreg (by simpa [received, written, writesOn] using heq)

/-- An entry of the client while the server waits to write to it. -/
lemma served_replying (hreg : s.kernel.interest c = some (epollOut, c))
    (hle : (received c h).length ≤ (written c h).length + readLen) (hblank : s.Blank)
    (hh : head ≠ listenFd) (hfd : l.1.fd = c) (hlegal : EntryLegal listenFd s (head, l)) :
    l.1.events.has epollIn = false ∧
      (l.1.events.has epollOut = false →
        ServedInv c ({ s with kernel := kernelAfter listenFd head l s.kernel },
          h ++ answer listenFd head l)) ∧
      (l.1.events.has epollOut = true → ∀ s₀ l₀ calls,
        ¬ UpperEchoed c s₀ l₀ (({ s with kernel := kernelAfter listenFd head l s.kernel },
          h ++ answer listenFd head l), calls)) := by
  have hin : l.1.events.has epollIn = false := by
    obtain ⟨m', hint, hbits⟩ := hlegal.1 hh
    rw [hfd, hreg] at hint
    obtain rfl : epollOut = m' := congrArg Prod.fst (Option.some.inj hint)
    exact hbits.has_eq_false (by decide)
  refine ⟨hin, fun hout => ⟨hblank, ?_⟩, fun hout s₀ l₀ calls hecho => ?_⟩
  · simp only [kernelAfter, answer, if_neg hh, hin, hout, Bool.false_eq_true, if_false,
      List.append_nil]
    exact .replying hreg hle
  · -- the client is back under `EPOLLIN`, with 4096 bytes more than it sent
    have hunder : UnderIn c { s with kernel := kernelAfter listenFd head l s.kernel } := by
      refine ⟨epollIn, ?_, by decide⟩
      simp only [kernelAfter, if_neg hh, hin, hout, Bool.false_eq_true, if_false, if_true, hfd,
        Kernel.epollCtl_mod_interest]
      rw [if_pos ⟨hlegal.2.2 c, by simp [hreg]⟩]
    have heq := congrArg List.length (hecho hunder)
    simp only [received_append, written_append, answer, if_neg hh, hin, hout,
      Bool.false_eq_true, if_false, if_true, hfd] at heq
    have hsent : received c [.write c (List.replicate bufferMaxLen 0), .print []] = [] := rfl
    have hgot : written c [.write c (List.replicate bufferMaxLen 0), .print []] =
        List.replicate bufferMaxLen 0 := by
      simp [written, writesOn]
    rw [hsent, hgot, List.append_nil, List.length_append, List.length_replicate,
      List.length_map] at heq
    have : readLen < bufferMaxLen := by decide
    omega

/-! ## Runs -/

/-- **One entry.**  It is right exactly when it does not reply to the client, and then the
invariant holds again. -/
lemma served_step {s : Server × List Call} {l : ℤ × Entry × Io} (hs : ServedInv c s)
    (hlegal : EntryLegal listenFd s.1 l) :
    ∃ r, recorded (entryStep listenFd) l s = some r ∧
      (UpperEchoed c s l r ↔ ¬ Replies listenFd c l) ∧
      (¬ Replies listenFd c l → ServedInv c r.1) := by
  obtain ⟨s, h⟩ := s
  obtain ⟨head, l⟩ := l
  have hstep : entryStep listenFd (head, l) s = _ := handleEntry_blank hs.1
  refine ⟨_, recorded_of_eq hstep, ?_⟩
  -- it is enough to have the invariant where the entry does not reply
  suffices hsuff : (ServedInv c ({ s with kernel := kernelAfter listenFd head l s.kernel },
        h ++ answer listenFd head l) ∧ ¬ Replies listenFd c (head, l)) ∨
      (Replies listenFd c (head, l) ∧ ∀ s₀ l₀ calls,
        ¬ UpperEchoed c s₀ l₀ (({ s with kernel := kernelAfter listenFd head l s.kernel },
          h ++ answer listenFd head l), calls)) by
    rcases hsuff with ⟨hinv, hno⟩ | ⟨hyes, hwrong⟩
    · exact ⟨iff_of_true hinv.upperEchoed hno, fun _ => hinv⟩
    · exact ⟨iff_of_false (hwrong _ _ _) (not_not.2 hyes), fun hno => absurd hyes hno⟩
  by_cases hl : Elsewhere listenFd head c l
  · refine Or.inl ⟨served_elsewhere hs hl hlegal, ?_⟩
    rintro ⟨hh, hfd, -⟩
    exact hl.elim hh fun hne => hne hfd
  obtain ⟨hh, hfd⟩ := not_or.1 hl
  rw [not_ne_iff] at hfd
  rcases hs.2 with ⟨m, hm, hreg, heq⟩ | ⟨hreg, hle⟩ | ⟨hreg, -⟩
  · obtain ⟨hinv, hout⟩ := served_waiting hm hreg heq hs.1 hh hfd hlegal
    refine Or.inl ⟨hinv, ?_⟩
    rintro ⟨-, -, -, hyes⟩
    cases (hout.symm.trans hyes)
  · obtain ⟨hin, hinv, hwrong⟩ := served_replying hreg hle hs.1 hh hfd hlegal
    by_cases hout : l.1.events.has epollOut = true
    · exact Or.inr ⟨⟨hh, hfd, hin, hout⟩, hwrong hout⟩
    · exact Or.inl ⟨hinv (by simpa using hout), fun hyes => hout hyes.2.2.2⟩
  · -- a descriptor that is not registered has no entry
    obtain ⟨m, hint, -⟩ := hlegal.1 hh
    rw [hfd] at hint
    exact absurd (hint.symm.trans hreg) (by simp)

lemma throughout_upperEchoed_iff {s : Server × List Call} (hs : ServedInv c s)
    {ls : List (ℤ × Entry × Io)}
    (hls : Allowed (recorded (entryStep listenFd)) (fun s l => EntryLegal listenFd s.1 l) ls s) :
    Throughout (recorded (entryStep listenFd)) (UpperEchoed c) ls s ↔
      ∀ l ∈ ls, ¬ Replies listenFd c l := by
  refine (throughout_iff_allowed (ServedInv c) (C := fun _ l => ¬ Replies listenFd c l)
    (fun s l hs hl => ?_) (fun s l r hs hl hno hr => ?_) hs hls).trans
    (allowed_iff_forall (ServedInv c) (fun s l hs hl hno => ?_) hs hls)
  · obtain ⟨r, hr, hiff, -⟩ := served_step hs hl
    rw [← hiff]
    constructor
    · rintro ⟨r', hr', hecho⟩
      obtain rfl := Option.some.inj (hr.symm.trans hr')
      exact hecho
    · exact fun hecho => ⟨r, hr, hecho⟩
  · obtain ⟨r', hr', -, hinv⟩ := served_step hs hl
    obtain rfl := Option.some.inj (hr'.symm.trans hr)
    exact hinv hno
  · obtain ⟨r, hr, -, hinv⟩ := served_step hs hl
    exact ⟨r, hr, hinv hno⟩

/-- **Upper-case echo, exactly.**  Take a client that is registered under `EPOLLIN`, and a run
of entries of any clients.  At every point at which the client is under `EPOLLIN` it has got
what it sent, in upper case, if and only if no entry of the run is handled by the `EPOLLOUT`
branch for this client. -/
theorem upperEchoed_iff_not_replies (listenFd c : ℤ) (s : Server) (hs : s.Blank) (m : Mask)
    (hm : m = epollIn ∨ m = epollIn ||| epollEt) (hc : s.kernel.interest c = some (m, c))
    (ls : List (ℤ × Entry × Io))
    (hls : Allowed (recorded (entryStep listenFd)) (fun s l => EntryLegal listenFd s.1 l) ls
      (s, [])) :
    Throughout (recorded (entryStep listenFd)) (UpperEchoed c) ls (s, []) ↔
      ∀ l ∈ ls, ¬ Replies listenFd c l :=
  throughout_upperEchoed_iff ⟨hs, .waiting m hm hc rfl⟩ hls

/-- "hi", as bytes, comes in from descriptor 5. -/
def hello : Entry × Io := Entry.sends 5 [104, 105] (by decide) (by decide)

lemma serving_blank : Server.serving.Blank := rfl

lemma serving_interest :
    Server.serving.kernel.interest 5 = some (epollIn ||| epollEt, 5) := rfl

lemma hello_legal : EntryLegal 4 Server.serving (5, hello) :=
  ⟨fun _ => ⟨_, serving_interest, by decide⟩, fun h => absurd h (by decide), fun _ => rfl⟩

lemma kernelAfter_hello :
    (kernelAfter 4 5 hello Server.serving.kernel).interest 5 = some (epollOut, 5) := rfl

lemma writable_legal : EntryLegal 4
    { Server.serving with kernel := kernelAfter 4 5 hello Server.serving.kernel }
    (5, Entry.writable 5) :=
  ⟨fun _ => ⟨epollOut, kernelAfter_hello, by decide⟩, fun h => absurd h (by decide), fun _ => rfl⟩

theorem upperEchoed_iff_not_replies_hello :
    Throughout (recorded (entryStep 4)) (UpperEchoed 5) [(5, hello)] (Server.serving, []) := by
  refine (upperEchoed_iff_not_replies 4 5 Server.serving serving_blank _ (Or.inr rfl)
    serving_interest _ (allowed_cons.2 ⟨hello_legal, fun _ _ => allowed_nil _ _⟩)).2 ?_
  rw [List.forall_mem_singleton]
  rintro ⟨-, -, hin, -⟩
  cases hin

/-- Client 5 sends "hi" and is answered by "HI"; then its `EPOLLOUT` is handled, and it gets
4096 zeros. -/
theorem zeros_written :
    ¬ ∀ ls : List (ℤ × Entry × Io),
      Allowed (recorded (entryStep 4)) (fun s l => EntryLegal 4 s.1 l) ls (Server.serving, []) →
        Throughout (recorded (entryStep 4)) (UpperEchoed 5) ls (Server.serving, []) := by
  intro h
  have hinv : ServedInv 5 (Server.serving, []) :=
    ⟨serving_blank, .waiting _ (Or.inr rfl) serving_interest rfl⟩
  have hstep : entryStep 4 (5, hello) Server.serving =
      some ({ Server.serving with kernel := kernelAfter 4 5 hello Server.serving.kernel },
        answer 4 5 hello) := handleEntry_blank serving_blank
  have hlegal : Allowed (recorded (entryStep 4)) (fun s l => EntryLegal 4 s.1 l)
      [(5, hello), (5, Entry.writable 5)] (Server.serving, []) := by
    refine allowed_cons.2 ⟨hello_legal, fun r hr => ?_⟩
    have hrec := recorded_of_eq (s := (Server.serving, [])) hstep
    obtain rfl := Option.some.inj (hrec.symm.trans hr)
    exact allowed_cons.2 ⟨writable_legal, fun _ _ => allowed_nil _ _⟩
  refine (throughout_upperEchoed_iff hinv hlegal).1 (h _ hlegal) (5, Entry.writable 5)
    (by simp) ⟨by decide, rfl, by decide, by decide⟩

end LibeventLearn.EpollDemo
