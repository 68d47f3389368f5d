import LibeventLearn.EpollDemo.Protocol
import LibeventLearn.Epoll.Readiness
import Mathlib.Data.List.Nodup

/-!
# Lost wakeups

A client is registered with `EPOLLET` when it is accepted.  What it sends first is therefore
reported once.  If the server does not read it then, it is never told again, and waits for the
client as the client waits for the server.  This happens exactly if the report is in a batch that
begins with the listening socket, of which every entry is taken for that, or the `read` fails.
-/

namespace LibeventLearn.EpollDemo

open Lib Epoll

/-- The server, and what has come in at its sockets. -/
structure Net where
  server : Server
  sockets : Sockets

/-- What happens: something comes in at a socket, or the server handles a batch.  What came in at a
connection before it was accepted comes with the batch. -/
inductive NetStep where
  | arrives (fd : ℤ) (bytes : List UInt8)
  | finishes (fd : ℤ)
  | raises (fd : ℤ)
  | batch (es : List (Entry × Io)) (early : Sockets)

/-- A change at one socket. -/
def Net.touch (fd : ℤ) (g : Socket → Socket) (n : Net) : Net :=
  { n with sockets := Function.update n.sockets fd (g (n.sockets fd)) }

/-- `epoll_wait` has returned the entries. -/
def Net.reported (es : List (Entry × Io)) (n : Net) : Net :=
  { n with
    sockets := fun fd =>
      if fd ∈ es.map (fun l => l.1.fd) then (n.sockets fd).reported else n.sockets fd }

/-- The sockets after an entry. -/
def socketsAfter (listenFd head : ℤ) (early : Sockets) (l : Entry × Io) (so : Sockets) : Sockets :=
  if head = listenFd then
    match l.2.accept with
    | none => so
    | some fd => Function.update so fd ((early fd).armed (l.2.ctl .add fd))
  else if l.1.events.has epollIn then
    match l.2.read with
    | .error => so
    | .eof => so
    | .data bytes _ _ =>
      Function.update so l.1.fd (((so l.1.fd).take bytes.length).armed (l.2.ctl .mod l.1.fd))
  else if l.1.events.has epollOut then
    Function.update so l.1.fd ((so l.1.fd).armed (l.2.ctl .mod l.1.fd))
  else so

/-- The body of the inner loop. -/
def netEntry (listenFd head : ℤ) (early : Sockets) (l : Entry × Io) (n : Net) :
    Option (Net × List Call) :=
  (handleEntry listenFd head l n.server).map fun r =>
    (⟨r.1, socketsAfter listenFd head early l n.sockets⟩, r.2)

/-- One step. -/
def netStep (listenFd : ℤ) : NetStep → Net → Option (Net × List Call)
  | .arrives fd bytes, n => some (n.touch fd fun sock => sock.arrive bytes, [])
  | .finishes fd, n => some (n.touch fd Socket.finish, [])
  | .raises fd, n => some (n.touch fd Socket.raise, [])
  | .batch es early, n => exec (netEntry listenFd (headFd es) early) es (n.reported es)

/-- What the kernel promises of an entry of a batch. -/
structure NetPromised (listenFd head : ℤ) (n : Net) (l : Entry × Io) : Prop where
  promised : Promised listenFd head n.server l
  answers : head ≠ listenFd → l.1.fd ≠ listenFd → (n.sockets l.1.fd).Answers l.2.read

/-- Anything may come in at any time.  A batch is one that `epoll_wait` may return, and the kernel
keeps its promises while it is handled. -/
def NetLegal (listenFd : ℤ) (n : Net) : NetStep → Prop
  | .batch es early =>
    n.server.kernel.WaitReturns (es.map fun l => (l.1.events, l.1.fd)) ∧
    (∀ l ∈ es, ∀ m, l.1.fd ≠ listenFd → n.server.kernel.interest l.1.fd = some (m, l.1.fd) →
      Reports m (n.sockets l.1.fd) l.1.events) ∧
    Allowed (netEntry listenFd (headFd es) early) (NetPromised listenFd (headFd es)) es
      (n.reported es)
  | _ => True

/-- The mask a client is first registered under. -/
def firstMask : Mask := epollIn ||| epollEt

/-- There is something to read from the client, and the server will not be told. -/
structure Lost (c : ℤ) (n : Net) : Prop where
  interest : n.server.kernel.interest c = some (firstMask, c)
  readable : (n.sockets c).readable = true
  edge : (n.sockets c).edge = false

/-- What is reported of a client that is registered with `EPOLLET` is read. -/
def Wakes (listenFd : ℤ) (n : Net) : NetStep → Prop
  | .batch es _ => ∀ l ∈ es, n.server.kernel.interest l.1.fd = some (firstMask, l.1.fd) →
      (n.sockets l.1.fd).readable = true → headFd es ≠ listenFd ∧ l.2.read ≠ .error
  | _ => True

variable {listenFd head c : ℤ} {early : Sockets} {l : Entry × Io} {es : List (Entry × Io)}
  {n : Net} {f : ℤ → Phase} {so : Sockets} {k : Kernel ℤ}

lemma touch_self (fd : ℤ) (g : Socket → Socket) (n : Net) :
    (n.touch fd g).sockets fd = g (n.sockets fd) := Function.update_self ..

lemma touch_of_ne {fd : ℤ} (h : c ≠ fd) (g : Socket → Socket) (n : Net) :
    (n.touch fd g).sockets c = n.sockets c := Function.update_of_ne h ..

lemma reported_of_mem (hl : l ∈ es) (n : Net) :
    (n.reported es).sockets l.1.fd = (n.sockets l.1.fd).reported :=
  if_pos (List.mem_map_of_mem hl)

lemma reported_of_forall_ne (h : ∀ l ∈ es, l.1.fd ≠ c) (n : Net) :
    (n.reported es).sockets c = n.sockets c := by
  refine if_neg fun hmem => ?_
  obtain ⟨l, hl, hfd⟩ := List.mem_map.1 hmem
  exact h l hl hfd

/-! ## One entry -/

/-- The system after an entry that finds a blank buffer. -/
def Net.after (listenFd head : ℤ) (early : Sockets) (l : Entry × Io) (n : Net) : Net where
  server := { n.server with kernel := kernelAfter listenFd head l n.server.kernel }
  sockets := socketsAfter listenFd head early l n.sockets

lemma netEntry_blank (h : n.server.Blank) :
    netEntry listenFd head early l n =
      some (n.after listenFd head early l, answer listenFd head l) := by
  rw [netEntry, handleEntry_blank h]
  rfl

/-- A socket changes with its own entries, and when its descriptor is handed out. -/
lemma socketsAfter_elsewhere (hl : Elsewhere listenFd head c l)
    (ha : head = listenFd → l.2.accept ≠ some c) :
    socketsAfter listenFd head early l so c = so c := by
  unfold socketsAfter
  by_cases hh : head = listenFd
  · rw [if_pos hh]
    cases hacc : l.2.accept with
    | none => rfl
    | some fd =>
      have hne : c ≠ fd := fun heq => ha hh (hacc.trans (congrArg some heq.symm))
      exact Function.update_of_ne hne ..
  have hfd : c ≠ l.1.fd := (hl.resolve_left hh).symm
  rw [if_neg hh]
  split
  · cases l.2.read with
    | data bytes hpos hle => exact Function.update_of_ne hfd ..
    | eof => rfl
    | error => rfl
  split
  · exact Function.update_of_ne hfd ..
  · rfl

/-- An open descriptor is not handed out. -/
lemma Promised.accept_ne {s : Server} (hp : Promised listenFd head s l)
    (hopen : s.kernel.isOpen c = true) : head = listenFd → l.2.accept ≠ some c := by
  intro hh heq
  cases hopen.symm.trans (hp.fresh hh c heq)

lemma Lost.isOpen (h : Lost c n) : n.server.kernel.isOpen c = true :=
  n.server.kernel.open_of_registered c (by rw [h.interest]; exact Option.some_ne_none _)

lemma ne_of_firstMask {s : Server} (hs : Shows listenFd s f)
    (hint : s.kernel.interest c = some (firstMask, c)) : c ≠ listenFd := by
  rintro rfl
  have heq : epollIn = firstMask :=
    congrArg Prod.fst (Option.some.inj (hs.listening.symm.trans hint))
  exact absurd heq (by decide)

lemma inMask_firstMask : InMask firstMask := Or.inr rfl

/-- Nothing is done with the client. -/
lemma Lost.elsewhere (h : Lost c n) (hl : Elsewhere listenFd head c l)
    (hp : Promised listenFd head n.server l) : Lost c (n.after listenFd head early l) := by
  have haccept := hp.accept_ne h.isOpen
  have hso : (n.after listenFd head early l).sockets c = n.sockets c :=
    socketsAfter_elsewhere hl haccept
  refine ⟨(kernelAfter_interest_elsewhere hl haccept).trans h.interest, ?_, ?_⟩
  · rw [hso]
    exact h.readable
  · rw [hso]
    exact h.edge

/-- **A client that is not read from stays lost.** -/
lemma Lost.after (h : Lost c n) (ha : Awaited n.server l) (hp : Promised listenFd head n.server l)
    (hbad : l.1.fd = c → head = listenFd ∨ l.2.read = .error) :
    Lost c (n.after listenFd head early l) := by
  by_cases hl : Elsewhere listenFd head c l
  · exact h.elsewhere hl hp
  obtain ⟨hh, hfd⟩ := not_or.1 hl
  rw [not_ne_iff] at hfd
  have hread := (hbad hfd).resolve_left hh
  -- the mask has no `EPOLLOUT`
  have hout : l.1.events.has epollOut = false := by
    obtain ⟨m, hint, hbits⟩ := ha
    rw [hfd, h.interest] at hint
    obtain rfl : firstMask = m := congrArg Prod.fst (Option.some.inj hint)
    exact inMask_firstMask.not_reportable hbits
  have hkernel : kernelAfter listenFd head l n.server.kernel = n.server.kernel := by
    rw [kernelAfter, if_neg hh, hread, hout]
    split <;> rfl
  have hso : socketsAfter listenFd head early l n.sockets = n.sockets := by
    rw [socketsAfter, if_neg hh, hread, hout]
    split <;> rfl
  refine ⟨?_, ?_, ?_⟩
  · show (kernelAfter listenFd head l n.server.kernel).interest c = _
    rw [hkernel]
    exact h.interest
  · show (socketsAfter listenFd head early l n.sockets c).readable = _
    rw [hso]
    exact h.readable
  · show (socketsAfter listenFd head early l n.sockets c).edge = _
    rw [hso]
    exact h.edge

/-- A client that is lost after its own entry was not read from. -/
lemma lost_after_own (ha : Awaited n.server l) (hp : Promised listenFd head n.server l)
    (h : Lost l.1.fd (n.after listenFd head early l)) :
    n.server.kernel.interest l.1.fd = some (firstMask, l.1.fd) ∧
      (n.sockets l.1.fd).readable = true ∧
      (l.1.events.has epollIn = true → head = listenFd ∨ l.2.read = .error) := by
  have hopen := ha.isOpen
  have hint := h.interest
  have hread := h.readable
  by_cases hh : head = listenFd
  · have haccept := hp.accept_ne hopen
    have hl : Elsewhere listenFd head l.1.fd l := Or.inl hh
    have hso : (n.after listenFd head early l).sockets l.1.fd = n.sockets l.1.fd :=
      socketsAfter_elsewhere hl haccept
    rw [hso] at hread
    exact ⟨(kernelAfter_interest_elsewhere hl haccept).symm.trans hint, hread, fun _ => Or.inl hh⟩
  have hreg : n.server.kernel.interest l.1.fd ≠ none := by
    obtain ⟨m, hm, -⟩ := ha
    rw [hm]
    exact Option.some_ne_none _
  -- a client that has been answered is registered under another mask
  have hmod : ∀ {m : Mask}, m ≠ firstMask →
      (n.server.kernel.epollCtl (l.2.ctl .mod l.1.fd) .mod l.1.fd (m, l.1.fd)).2.interest l.1.fd ≠
        some (firstMask, l.1.fd) := by
    intro m hm heq
    rw [Kernel.epollCtl_mod_interest, if_pos ⟨hp.mod _, hreg⟩] at heq
    exact hm (congrArg Prod.fst (Option.some.inj heq))
  simp only [Net.after, kernelAfter, socketsAfter, if_neg hh] at hint hread
  by_cases hin : l.1.events.has epollIn = true
  · simp only [if_pos hin] at hint hread
    cases hres : l.2.read with
    | data bytes hpos hle =>
      rw [hres] at hint
      exact absurd hint (hmod (by decide))
    | eof =>
      rw [hres] at hint
      simp at hint
    | error =>
      rw [hres] at hint hread
      exact ⟨hint, hread, fun _ => Or.inr rfl⟩
  · simp only [if_neg hin] at hint hread
    by_cases hout : l.1.events.has epollOut = true
    · rw [if_pos hout] at hint
      exact absurd hint (hmod (by decide))
    · rw [if_neg hout] at hint hread
      exact ⟨hint, hread, fun h => absurd h hin⟩

/-- A client that has just been accepted is not lost. -/
lemma not_lost_accepted (hh : head = listenFd) (haccept : l.2.accept = some c)
    (hclosed : n.server.kernel.isOpen c = false) :
    ¬ Lost c (n.after listenFd head early l) := by
  rintro ⟨hint, hread, hedge⟩
  have hnone : n.server.kernel.interest c = none := by
    by_contra hne
    cases hclosed.symm.trans (n.server.kernel.open_of_registered c hne)
  simp only [Net.after, kernelAfter, socketsAfter, if_pos hh, haccept, Function.update_self,
    Kernel.epollCtl_add_interest, Kernel.opened_interest, hnone] at hint hread hedge
  cases hgranted : l.2.ctl .add c with
  | true =>
    rw [hgranted] at hedge
    cases (Socket.armed_edge (early c) hread).symm.trans hedge
  | false =>
    rw [hgranted, if_neg fun h => Bool.false_ne_true h.1] at hint
    cases hint

/-! ## Batches -/

/-- A client that has an entry of a batch stays lost if that is not read from. -/
lemma batch_lost (h : Lost c n) (hblank : n.server.Blank)
    (hdistinct : es.Pairwise fun l l' => l.1.fd ≠ l'.1.fd) (hes : ∀ l ∈ es, Awaited n.server l)
    (hp : Allowed (netEntry listenFd head early) (NetPromised listenFd head) es n)
    (hbad : ∀ l ∈ es, l.1.fd = c → head = listenFd ∨ l.2.read = .error) {q : Net × List Call}
    (hq : exec (netEntry listenFd head early) es n = some q) : Lost c q.1 := by
  induction es generalizing n q with
  | nil =>
    obtain rfl : (n, []) = q := Option.some.inj hq
    exact h
  | cons l es ih =>
    obtain ⟨hne, hdistinct⟩ := List.pairwise_cons.1 hdistinct
    rw [List.forall_mem_cons] at hes hbad
    obtain ⟨r, r', hr, hr', rfl⟩ := exec_cons_eq_some.1 hq
    have hrest := hp.2 r hr
    obtain rfl := Option.some.inj ((netEntry_blank hblank).symm.trans hr)
    exact ih (q := r') (h.after hes.1 hp.1.promised hbad.1) hblank hdistinct
      (fun l' hl' => (hes.2 l' hl').after (hne l' hl') hp.1.promised) hrest hbad.2 hr'

/-- The entry is read from, if there is something to read. -/
def Read (listenFd head : ℤ) (n : Net) (l : Entry × Io) : Prop :=
  n.server.kernel.interest l.1.fd = some (firstMask, l.1.fd) →
    (n.sockets l.1.fd).readable = true →
      l.1.events.has epollIn = true ∧ head ≠ listenFd ∧ l.2.read ≠ .error

/-- If all entries of a batch are read from, nobody is lost. -/
lemma batch_not_lost (hblank : n.server.Blank)
    (hdistinct : es.Pairwise fun l l' => l.1.fd ≠ l'.1.fd) (hes : ∀ l ∈ es, Awaited n.server l)
    (hp : Allowed (netEntry listenFd head early) (NetPromised listenFd head) es n)
    (hread : ∀ l ∈ es, Read listenFd head n l)
    (h : ∀ c, (∀ l ∈ es, l.1.fd ≠ c) → ¬ Lost c n) {q : Net × List Call}
    (hq : exec (netEntry listenFd head early) es n = some q) : ∀ c, ¬ Lost c q.1 := by
  induction es generalizing n q with
  | nil =>
    obtain rfl : (n, []) = q := Option.some.inj hq
    exact fun c => h c fun l hl => absurd hl List.not_mem_nil
  | cons l es ih =>
    obtain ⟨hne, hdistinct⟩ := List.pairwise_cons.1 hdistinct
    rw [List.forall_mem_cons] at hes hread
    obtain ⟨r, r', hr, hr', rfl⟩ := exec_cons_eq_some.1 hq
    have hrest := hp.2 r hr
    obtain rfl := Option.some.inj ((netEntry_blank hblank).symm.trans hr)
    have hp := hp.1.promised
    refine ih (n := n.after listenFd head early l) (q := r') hblank hdistinct
      (fun l' hl' => (hes.2 l' hl').after (hne l' hl') hp) hrest
      (fun l' hl' => ?_) (fun c hc hlost => ?_) hr'
    · -- the entries that are still to come do not notice
      have haccept := hp.accept_ne (hes.2 l' hl').isOpen
      have hl : Elsewhere listenFd head l'.1.fd l := Or.inr (hne l' hl')
      intro hint hreadable
      have hso : (n.after listenFd head early l).sockets l'.1.fd = n.sockets l'.1.fd :=
        socketsAfter_elsewhere hl haccept
      rw [hso] at hreadable
      exact hread.2 l' hl' ((kernelAfter_interest_elsewhere hl haccept).symm.trans hint) hreadable
    · by_cases hown : l.1.fd = c
      · subst hown
        obtain ⟨hint, hreadable, hbad⟩ := lost_after_own hes.1 hp hlost
        obtain ⟨hin, hh, hres⟩ := hread.1 hint hreadable
        exact (hbad hin).elim hh hres
      by_cases hac : head = listenFd ∧ l.2.accept = some c
      · exact not_lost_accepted hac.1 hac.2 (hp.fresh hac.1 c hac.2) hlost
      · -- nothing was done with the client
        have haccept : head = listenFd → l.2.accept ≠ some c := fun hh heq => hac ⟨hh, heq⟩
        have hl : Elsewhere listenFd head c l := Or.inr hown
        have hso : (n.after listenFd head early l).sockets c = n.sockets c :=
          socketsAfter_elsewhere hl haccept
        refine h c (List.forall_mem_cons.2 ⟨hown, hc⟩) ⟨?_, ?_, ?_⟩
        · exact (kernelAfter_interest_elsewhere hl haccept).symm.trans hlost.interest
        · rw [← hso]
          exact hlost.readable
        · rw [← hso]
          exact hlost.edge

/-! ## One step -/

lemma exec_netEntry_blank (listenFd head : ℤ) (early : Sockets) (es : List (Entry × Io))
    (hblank : n.server.Blank) : ∃ q, exec (netEntry listenFd head early) es n = some q := by
  induction es generalizing n with
  | nil => exact ⟨_, rfl⟩
  | cons l es ih =>
    obtain ⟨q, hq⟩ := ih (n := n.after listenFd head early l) hblank
    exact ⟨_, exec_cons_eq_some.2 ⟨_, q, netEntry_blank hblank, hq, rfl⟩⟩

/-- The server does what it does without the sockets. -/
lemma netEntry_project (l : Entry × Io) (n : Net) (r : Net × List Call)
    (hr : netEntry listenFd head early l n = some r) :
    handleEntry listenFd head l n.server = some (r.1.server, r.2) := by
  obtain ⟨r', hr', rfl⟩ := Option.map_eq_some_iff.1 hr
  exact hr'

lemma NetLegal.batchLegal (h : NetLegal listenFd n (.batch es early)) :
    BatchLegal listenFd n.server es := by
  refine ⟨h.1, Allowed.project Net.server (s := n.reported es) (fun l n r hr => ?_)
    (h.2.2.imp fun _ _ hp => hp.promised)⟩
  exact ⟨_, by rw [netEntry, hr]; rfl, rfl⟩

/-- What holds between two steps. -/
structure NetInv (listenFd : ℤ) (n : Net) : Prop where
  shows : ∃ f, Shows listenFd n.server f
  none_lost : ∀ c, ¬ Lost c n

lemma shows_netStep {l : NetStep} (hs : ∃ f, Shows listenFd n.server f)
    (hl : NetLegal listenFd n l) :
    ∃ r, netStep listenFd l n = some r ∧ ∃ f, Shows listenFd r.1.server f := by
  obtain ⟨f, hs⟩ := hs
  cases l with
  | arrives fd bytes => exact ⟨_, rfl, f, hs⟩
  | finishes fd => exact ⟨_, rfl, f, hs⟩
  | raises fd => exact ⟨_, rfl, f, hs⟩
  | batch es early =>
    have hblank : (n.reported es).server.Blank := hs.blank
    obtain ⟨q, hq⟩ := exec_netEntry_blank listenFd (headFd es) early es hblank
    have hbatch : handleBatch listenFd es (n.reported es).server = some (q.1.server, q.2) :=
      exec_project Net.server netEntry_project hq
    obtain ⟨f', -, hs'⟩ := hs.batch hl.batchLegal hbatch
    exact ⟨q, hq, f', hs'⟩

/-- What comes in does not make a client lost. -/
lemma NetInv.touch {fd : ℤ} {g : Socket → Socket} (hn : NetInv listenFd n)
    (hg : ∀ sock, (g sock).edge = true) : NetInv listenFd (n.touch fd g) := by
  refine ⟨hn.shows, fun c hlost => ?_⟩
  by_cases hc : c = fd
  · have hedge := hlost.edge
    rw [hc, touch_self, hg] at hedge
    cases hedge
  · refine hn.none_lost c ⟨hlost.interest, ?_, ?_⟩
    · have hread := hlost.readable
      rwa [touch_of_ne hc] at hread
    · have hedge := hlost.edge
      rwa [touch_of_ne hc] at hedge

/-- **One step.** -/
lemma NetInv.step_iff {l : NetStep} (hn : NetInv listenFd n) (hl : NetLegal listenFd n l) :
    (∃ r, netStep listenFd l n = some r ∧ ∀ c, ¬ Lost c r.1) ↔ Wakes listenFd n l := by
  cases l with
  | arrives fd bytes =>
    exact iff_of_true
      ⟨_, rfl, (hn.touch (g := fun sock => sock.arrive bytes) fun _ => rfl).none_lost⟩ trivial
  | finishes fd => exact iff_of_true ⟨_, rfl, (hn.touch fun _ => rfl).none_lost⟩ trivial
  | raises fd => exact iff_of_true ⟨_, rfl, (hn.touch fun _ => rfl).none_lost⟩ trivial
  | batch es early =>
    obtain ⟨f, hs⟩ := hn.shows
    obtain ⟨hwait, hreports, hp⟩ := hl
    obtain ⟨hdistinct, hes⟩ := hs.awaited hwait
    have hblank : (n.reported es).server.Blank := hs.blank
    constructor
    · rintro ⟨r, hr, hnone⟩ l hl hint hread
      by_contra hbad
      -- the client is lost from the report on
      have hlost : Lost l.1.fd (n.reported es) := by
        refine ⟨hint, ?_, ?_⟩
        · rw [reported_of_mem hl]
          exact hread
        · rw [reported_of_mem hl]
          rfl
      refine hnone l.1.fd (batch_lost hlost hblank hdistinct hes hp (fun l' hl' hfd => ?_) hr)
      obtain rfl : l' = l :=
        List.inj_on_of_nodup_map (List.pairwise_map.2 hdistinct) hl' hl hfd
      by_contra hgood
      exact hbad (not_or.1 hgood)
    · intro hwakes
      obtain ⟨q, hq⟩ := exec_netEntry_blank listenFd (headFd es) early es hblank
      refine ⟨q, hq, batch_not_lost hblank hdistinct hes hp (fun l hl hint hread => ?_)
        (fun c hc hlost => hn.none_lost c ⟨hlost.interest, ?_, ?_⟩) hq⟩
      · rw [reported_of_mem hl] at hread
        have hin := (hreports l hl firstMask (ne_of_firstMask hs hint) hint).readable
        rw [Socket.reported_readable] at hread
        rw [hread] at hin
        exact ⟨hin, hwakes l hl hint hread⟩
      · rw [← reported_of_forall_ne hc]
        exact hlost.readable
      · rw [← reported_of_forall_ne hc]
        exact hlost.edge

/-! ## Runs -/

/-- The system at the start of the server's main loop, whatever is in its sockets. -/
def Net.start (listenFd : ℤ) (sockets : Sockets) : Net := ⟨Server.start listenFd, sockets⟩

lemma netInv_start (listenFd : ℤ) (sockets : Sockets) :
    NetInv listenFd (Net.start listenFd sockets) := by
  refine ⟨⟨_, shows_start listenFd⟩, fun c hlost => ?_⟩
  have hne := ne_of_firstMask (shows_start listenFd) hlost.interest
  cases (start_closed hne).symm.trans hlost.isOpen

/-- **No wakeup is lost, exactly.**  In a run of the server in which anything may come in at any
time, at no point there is a client registered with `EPOLLET` that has something to be read and will
not be reported, if and only if every such client that is reported is read from: the batch does not
begin with the listening socket, and the `read` does not fail. -/
theorem none_lost_iff_wakes (listenFd : ℤ) (sockets : Sockets) (ls : List NetStep)
    (hls : Allowed (netStep listenFd) (NetLegal listenFd) ls (Net.start listenFd sockets)) :
    Throughout (netStep listenFd) (fun _ _ r => ∀ c, ¬ Lost c r.1) ls
        (Net.start listenFd sockets) ↔
      Allowed (netStep listenFd) (Wakes listenFd) ls (Net.start listenFd sockets) := by
  refine throughout_iff_allowed (NetInv listenFd) (fun n l hn hl => hn.step_iff hl)
    (fun n l r hn hl hwakes hr => ?_) (netInv_start listenFd sockets) hls
  obtain ⟨r₁, hr₁, hshows⟩ := shows_netStep hn.shows hl
  obtain ⟨r₂, hr₂, hnone⟩ := (hn.step_iff hl).2 hwakes
  obtain rfl := Option.some.inj (hr₁.symm.trans hr)
  obtain rfl := Option.some.inj (hr₂.symm.trans hr)
  exact ⟨hshows, hnone⟩

/-- Nothing has come in but one byte of every connection, before it is accepted. -/
def oneByte : Sockets := fun _ => ⟨[104], false, false⟩

lemma arrives_netLegal (hs : Shows listenFd n.server f) {cfd : ℤ}
    (hclosed : n.server.kernel.isOpen cfd = false) (granted : Bool) :
    NetLegal listenFd n (.batch [Entry.arrives listenFd cfd granted] early) := by
  obtain ⟨hwait, hp, -⟩ := hs.arrives_legal hclosed granted
  refine ⟨hwait, fun l hl m hfd => ?_, ⟨hp, fun hh => absurd rfl hh⟩, fun _ _ => trivial⟩
  obtain rfl := List.mem_singleton.1 hl
  exact absurd rfl hfd

/-- A connection comes in. -/
theorem none_lost_iff_wakes_arrives :
    Throughout (netStep 4) (fun _ _ r => ∀ c, ¬ Lost c r.1)
      [.batch [Entry.arrives 4 5 true] oneByte] (Net.start 4 oneByte) := by
  have hs : Shows 4 (Net.start 4 oneByte).server _ := shows_start 4
  refine (none_lost_iff_wakes 4 oneByte [.batch [Entry.arrives 4 5 true] oneByte]
    ⟨arrives_netLegal hs (start_closed (by decide)) true, fun _ _ => trivial⟩).2
    ⟨fun l hl hint => ?_, fun _ _ => trivial⟩
  obtain rfl := List.mem_singleton.1 hl
  exact absurd rfl (ne_of_firstMask hs hint)

/-! ## A lost client -/

/-- Nothing comes in from the client. -/
def Silent (c : ℤ) : NetStep → Prop
  | .arrives fd _ => fd ≠ c
  | .finishes fd => fd ≠ c
  | .raises fd => fd ≠ c
  | .batch _ _ => True

lemma Lost.touch {fd : ℤ} (h : Lost c n) (hfd : fd ≠ c) (g : Socket → Socket) :
    Lost c (n.touch fd g) := by
  refine ⟨h.interest, ?_, ?_⟩
  · rw [touch_of_ne hfd.symm]
    exact h.readable
  · rw [touch_of_ne hfd.symm]
    exact h.edge

/-- A batch without an entry of a lost client. -/
lemma Lost.batch (h : Lost c n) (hblank : n.server.Blank)
    (hdistinct : es.Pairwise fun l l' => l.1.fd ≠ l'.1.fd) (hes : ∀ l ∈ es, Awaited n.server l)
    (hp : Allowed (netEntry listenFd head early) (NetPromised listenFd head) es n)
    (hother : ∀ l ∈ es, l.1.fd ≠ c) {q : Net × List Call}
    (hq : exec (netEntry listenFd head early) es n = some q) :
    Lost c q.1 ∧ ∀ a ∈ q.2, a.client ≠ some c := by
  refine ⟨batch_lost h hblank hdistinct hes hp (fun l hl hfd => absurd hfd (hother l hl)) hq, ?_⟩
  induction es generalizing n q with
  | nil =>
    obtain rfl : (n, []) = q := Option.some.inj hq
    exact fun a ha => absurd ha List.not_mem_nil
  | cons l es ih =>
    obtain ⟨hne, hdistinct⟩ := List.pairwise_cons.1 hdistinct
    rw [List.forall_mem_cons] at hes hother
    obtain ⟨r, r', hr, hr', rfl⟩ := exec_cons_eq_some.1 hq
    have hrest := hp.2 r hr
    obtain rfl := Option.some.inj ((netEntry_blank hblank).symm.trans hr)
    have hp := hp.1.promised
    intro a ha
    rcases List.mem_append.1 ha with ha | ha
    · exact client_ne_of_elsewhere (Or.inr hother.1) (hp.accept_ne h.isOpen) ha
    · exact ih (q := r') (h.elsewhere (Or.inr hother.1) hp) hblank hdistinct
        (fun l' hl' => (hes.2 l' hl').after (hne l' hl') hp) hrest hother.2 hr' a ha

/-- **One step**, in which nothing comes in from a lost client. -/
lemma Lost.step {l : NetStep} (h : Lost c n) (hs : ∃ f, Shows listenFd n.server f)
    (hl : NetLegal listenFd n l) (hsilent : Silent c l) {r : Net × List Call}
    (hr : netStep listenFd l n = some r) :
    Lost c r.1 ∧ ∀ a ∈ r.2, a.client ≠ some c := by
  have hnone : ∀ a ∈ ([] : List Call), a.client ≠ some c := fun a ha => absurd ha List.not_mem_nil
  cases l with
  | arrives fd bytes =>
    obtain rfl := Option.some.inj hr
    exact ⟨h.touch hsilent fun sock => sock.arrive bytes, hnone⟩
  | finishes fd =>
    obtain rfl := Option.some.inj hr
    exact ⟨h.touch hsilent _, hnone⟩
  | raises fd =>
    obtain rfl := Option.some.inj hr
    exact ⟨h.touch hsilent _, hnone⟩
  | batch es early =>
    obtain ⟨f, hs⟩ := hs
    obtain ⟨hwait, hreports, hp⟩ := hl
    obtain ⟨hdistinct, hes⟩ := hs.awaited hwait
    -- there is no edge to report
    have hother : ∀ l ∈ es, l.1.fd ≠ c := by
      rintro l hl rfl
      have hfd := ne_of_firstMask hs h.interest
      cases ((hreports l hl firstMask hfd h.interest).edge rfl).symm.trans h.edge
    have hso := reported_of_forall_ne hother n
    have hlost : Lost c (n.reported es) := by
      refine ⟨h.interest, ?_, ?_⟩
      · rw [hso]
        exact h.readable
      · rw [hso]
        exact h.edge
    exact hlost.batch hs.blank hdistinct hes hp hother hr

/-- **A lost client is stuck.**  From any point of a run at which a client is lost, as long as
nothing more comes in from it, no call is about it, and it stays lost. -/
theorem lost_forever (listenFd c : ℤ) (sockets : Sockets) (ls ls' : List NetStep)
    (hls : Allowed (netStep listenFd) (NetLegal listenFd) (ls ++ ls')
      (Net.start listenFd sockets)) (q : Net × List Call)
    (hq : exec (netStep listenFd) ls (Net.start listenFd sockets) = some q) (hlost : Lost c q.1)
    (hsilent : ∀ l ∈ ls', Silent c l) :
    ∃ q', exec (netStep listenFd) ls' q.1 = some q' ∧ Lost c q'.1 ∧
      ∀ a ∈ q'.2, a.client ≠ some c := by
  obtain ⟨hfirst, hlast⟩ := hls.of_append hq
  have hkeeps : ∀ n l r, (∃ f, Shows listenFd n.server f) → NetLegal listenFd n l →
      netStep listenFd l n = some r → ∃ f, Shows listenFd r.1.server f := by
    intro n l r hs hl hr
    obtain ⟨r', hr', hs'⟩ := shows_netStep hs hl
    obtain rfl := Option.some.inj (hr'.symm.trans hr)
    exact hs'
  have hshows : ∃ f, Shows listenFd q.1.server f :=
    exec_inv (fun n => ∃ f, Shows listenFd n.server f) hkeeps ⟨_, shows_start listenFd⟩ hfirst hq
  have hthrough : Throughout (netStep listenFd) (fun _ _ _ => True) ls' q.1 := by
    refine Throughout.of_inv (fun n => ∃ f, Shows listenFd n.server f) (fun n l hs hl => ?_) hshows
      hlast
    obtain ⟨r, hr, hs'⟩ := shows_netStep hs hl
    exact ⟨r, hr, trivial, hs'⟩
  obtain ⟨q', hq'⟩ := Option.ne_none_iff_exists'.1 (exec_ne_none_iff.2 hthrough)
  have hstep : ∀ n l r, (∃ f, Shows listenFd n.server f) ∧ Lost c n →
      NetLegal listenFd n l ∧ Silent c l → netStep listenFd l n = some r →
      ((∃ f, Shows listenFd r.1.server f) ∧ Lost c r.1) ∧ ∀ a ∈ r.2, a.client ≠ some c := by
    rintro n l r ⟨hs, hlost⟩ ⟨hl, hsilent⟩ hr
    obtain ⟨hlost', hcalls⟩ := hlost.step hs hl hsilent hr
    exact ⟨⟨hkeeps n l r hs hl hr, hlost'⟩, hcalls⟩
  obtain ⟨hinv, hcalls⟩ := exec_inv_outputs
    (fun n => (∃ f, Shows listenFd n.server f) ∧ Lost c n) hstep ⟨hshows, hlost⟩
    (hlast.and_forall hsilent) hq'
  exact ⟨q', hq', hinv.2, hcalls⟩

/-- The report of client 5, in a batch in which nobody is accepted for it. -/
def reportFive : Entry × Io := (⟨epollIn, 5⟩, ⟨none, .error, fun _ _ => true⟩)

/-- Client 5 connects; it is first reported together with the next connection. -/
def trap : List NetStep :=
  [.batch [Entry.arrives 4 5 true] oneByte, .batch [Entry.arrives 4 6 true, reportFive] oneByte]

/-- The system after the first batch. -/
def Net.connected : Net :=
  ((Net.start 4 oneByte).reported [Entry.arrives 4 5 true]).after 4 4 oneByte
    (Entry.arrives 4 5 true)

/-- The system after both. -/
def Net.trapped : Net :=
  ((Net.connected.reported [Entry.arrives 4 6 true, reportFive]).after 4 4 oneByte
    (Entry.arrives 4 6 true)).after 4 4 oneByte reportFive

lemma lost_trapped : Lost 5 Net.trapped := ⟨rfl, rfl, rfl⟩

lemma trap_netLegal :
    NetLegal 4 Net.connected (.batch [Entry.arrives 4 6 true, reportFive] oneByte) := by
  have hreport : Reports firstMask (Net.connected.sockets 5) epollIn :=
    ⟨by decide, by decide, fun _ => rfl⟩
  refine ⟨⟨[4, 5], by decide, .cons ⟨epollIn, rfl, by decide⟩
    (.cons ⟨firstMask, rfl, by decide⟩ .nil)⟩, fun l hl m hfd hint => ?_, ?_⟩
  · rcases List.mem_cons.1 hl with rfl | hl
    · exact absurd rfl hfd
    · obtain rfl := List.mem_singleton.1 hl
      obtain rfl : firstMask = m := congrArg Prod.fst (Option.some.inj hint)
      exact hreport
  · refine ⟨⟨⟨fun _ fd hfd => ?_, fun _ _ => rfl, fun fd => rfl⟩, fun hh => absurd rfl hh⟩,
      fun r hr => ⟨⟨⟨fun _ fd hfd => ?_, fun hh => absurd rfl hh, fun fd => rfl⟩,
        fun hh => absurd rfl hh⟩, fun _ _ => trivial⟩⟩
    · obtain rfl : 6 = fd := Option.some.inj hfd
      rfl
    · cases hfd

theorem lost_forever_trap :
    ∃ q q', exec (netStep 4) trap (Net.start 4 oneByte) = some q ∧
      exec (netStep 4) [.batch [Entry.arrives 4 7 true] oneByte] q.1 = some q' ∧ Lost 5 q'.1 ∧
      ∀ a ∈ q'.2, a.client ≠ some 5 := by
  have hstep₁ : netStep 4 (.batch [Entry.arrives 4 5 true] oneByte) (Net.start 4 oneByte) =
      some (Net.connected, [.accept 4 (some 5)]) := rfl
  have hstep₂ : netStep 4 (.batch [Entry.arrives 4 6 true, reportFive] oneByte) Net.connected =
      some (Net.trapped, [.accept 4 (some 6), .accept 4 none]) := rfl
  have hlegal₁ : NetLegal 4 (Net.start 4 oneByte) (.batch [Entry.arrives 4 5 true] oneByte) :=
    arrives_netLegal (shows_start 4) (start_closed (by decide)) true
  have hshows : ∃ f, Shows 4 Net.trapped.server f := by
    obtain ⟨r₁, hr₁, hs₁⟩ := shows_netStep ⟨_, shows_start 4⟩ hlegal₁
    obtain rfl := Option.some.inj (hstep₁.symm.trans hr₁)
    obtain ⟨r₂, hr₂, hs₂⟩ := shows_netStep hs₁ trap_netLegal
    obtain rfl := Option.some.inj (hstep₂.symm.trans hr₂)
    exact hs₂
  have hlegal : Allowed (netStep 4) (NetLegal 4)
      (trap ++ [.batch [Entry.arrives 4 7 true] oneByte]) (Net.start 4 oneByte) := by
    refine ⟨hlegal₁, fun r hr => ?_⟩
    obtain rfl := Option.some.inj (hstep₁.symm.trans hr)
    refine ⟨trap_netLegal, fun r hr => ?_⟩
    obtain rfl := Option.some.inj (hstep₂.symm.trans hr)
    obtain ⟨f, hs⟩ := hshows
    exact ⟨arrives_netLegal hs rfl true, fun _ _ => trivial⟩
  have hrun : exec (netStep 4) trap (Net.start 4 oneByte) = some (Net.trapped, _) :=
    exec_cons_eq_some.2 ⟨_, _, hstep₁, exec_cons_eq_some.2 ⟨_, _, hstep₂, exec_nil _, rfl⟩, rfl⟩
  obtain ⟨q', hq', hlost, hcalls⟩ := lost_forever 4 5 oneByte trap
    [.batch [Entry.arrives 4 7 true] oneByte] hlegal _ hrun lost_trapped
    (List.forall_mem_singleton.2 trivial)
  exact ⟨_, q', hrun, hq', hlost, hcalls⟩

end LibeventLearn.EpollDemo
