import LibeventLearn.EpollDemo.Isolation

/-!
# Telling the entries of a batch apart

The inner loop decides whether an entry is that of the listening socket by looking at the entry
at the head of the batch.  So a batch is handled entry by entry as it should be exactly when it
does not mix the listening socket with clients.
-/

namespace LibeventLearn.EpollDemo

open Lib Epoll

variable {listenFd head : ℤ} {l : Entry × Io} {s : Server} {es : List (Entry × Io)}

/-- The calls made for an entry go by the entry's own descriptor. -/
structure Routed (listenFd : ℤ) (l : Entry × Io) (calls : List Call) : Prop where
  accept_iff : (∃ result, .accept listenFd result ∈ calls) ↔ l.1.fd = listenFd
  read : l.1.fd ≠ listenFd → l.1.events.has epollIn = true →
    ∃ bytes, .read l.1.fd bytes ∈ calls
  write : l.1.fd ≠ listenFd → l.1.events.has epollIn = false → l.1.events.has epollOut = true →
    ∃ bytes, .write l.1.fd bytes ∈ calls
  own : ∀ fd bytes, .read fd bytes ∈ calls ∨ .write fd bytes ∈ calls →
    fd = l.1.fd ∧ fd ≠ listenFd

/-- Every entry of the batch is handled by its own descriptor. -/
def BatchRouted (listenFd : ℤ) (s : Server) (es : List (Entry × Io)) : Prop :=
  Throughout (handleEntry listenFd (headFd es)) (fun _ l r => Routed listenFd l r.2) es s

/-- The entries agree with the one at the head on being that of the listening socket. -/
def Uniform (listenFd : ℤ) (es : List (Entry × Io)) : Prop :=
  ∀ l ∈ es, (l.1.fd = listenFd ↔ headFd es = listenFd)

/-! ## One entry -/

lemma answer_of_head (h : head = listenFd) :
    answer listenFd head l = [.accept listenFd l.2.accept] := if_pos h

/-- Calls made for an entry that is not taken for the listening socket. -/
lemma mem_answer_of_head_ne (h : head ≠ listenFd) :
    (∀ result, .accept listenFd result ∉ answer listenFd head l) ∧
      (∀ fd bytes, .read fd bytes ∈ answer listenFd head l → fd = l.1.fd) ∧
      ∀ fd bytes, .write fd bytes ∈ answer listenFd head l → fd = l.1.fd := by
  unfold answer
  rw [if_neg h]
  split
  · cases l.2.read with
    | data bytes hpos hle => simp +contextual
    | eof => simp +contextual
    | error => simp +contextual
  split
  · simp +contextual
  · simp

/-- An entry is routed properly exactly when it agrees with the head. -/
lemma routed_answer_iff :
    Routed listenFd l (answer listenFd head l) ↔ (l.1.fd = listenFd ↔ head = listenFd) := by
  by_cases h : head = listenFd
  · rw [answer_of_head h]
    constructor
    · intro hr
      exact iff_of_true (hr.accept_iff.1 ⟨_, List.mem_singleton_self _⟩) h
    · intro hiff
      have hfd := hiff.2 h
      refine ⟨iff_of_true ⟨_, List.mem_singleton_self _⟩ hfd, fun hne => absurd hfd hne,
        fun hne => absurd hfd hne, fun fd bytes hmem => ?_⟩
      simp at hmem
  · obtain ⟨haccept, hread, hwrite⟩ := mem_answer_of_head_ne (l := l) h
    constructor
    · intro hr
      refine iff_of_false (fun hfd => ?_) h
      obtain ⟨result, hmem⟩ := hr.accept_iff.2 hfd
      exact haccept result hmem
    · intro hiff
      have hfd : l.1.fd ≠ listenFd := fun heq => h (hiff.1 heq)
      refine ⟨iff_of_false (fun ⟨result, hmem⟩ => haccept result hmem) hfd, fun _ hin => ?_,
        fun _ hin hout => ?_, fun fd bytes hmem => ?_⟩
      · unfold answer
        rw [if_neg h, if_pos hin]
        cases l.2.read with
        | data bytes hpos hle => exact ⟨bytes, List.mem_cons_self⟩
        | eof => exact ⟨[], List.mem_cons_self⟩
        | error => exact ⟨[], List.mem_cons_self⟩
      · unfold answer
        rw [if_neg h, if_neg (by simp [hin]), if_pos hout]
        exact ⟨_, List.mem_cons_self⟩
      · have hown : fd = l.1.fd := hmem.elim (hread fd bytes) (hwrite fd bytes)
        exact ⟨hown, hown ▸ hfd⟩

/-! ## Batches and runs -/

lemma batchRouted_iff (hs : s.Blank) : BatchRouted listenFd s es ↔ Uniform listenFd es := by
  have hall : Allowed (handleEntry listenFd (headFd es)) (fun _ _ => True) es s :=
    allowed_of_forall (fun _ _ => trivial) es s
  refine (throughout_iff_allowed Server.Blank
    (C := fun _ l => (l.1.fd = listenFd ↔ headFd es = listenFd)) (fun s l hs _ => ?_)
    (fun s l r hs _ _ hr => ?_) hs hall).trans
    (allowed_iff_forall Server.Blank (fun s l hs _ _ => ⟨_, handleEntry_blank hs, hs⟩) hs hall)
  · rw [← routed_answer_iff]
    constructor
    · rintro ⟨r, hr, hrouted⟩
      obtain rfl := Option.some.inj ((handleEntry_blank hs).symm.trans hr)
      exact hrouted
    · intro hrouted
      exact ⟨_, handleEntry_blank hs, hrouted⟩
  · obtain rfl := Option.some.inj ((handleEntry_blank hs).symm.trans hr)
    exact hs

/-- **Demultiplexing, exactly.**  In a run of the server every entry of every batch is handled
by its own descriptor if and only if no batch mixes the listening socket with clients, the entry
at the head deciding for all. -/
theorem routed_iff_uniform (listenFd : ℤ) (bs : List (List (Entry × Io))) :
    Throughout (handleBatch listenFd) (fun s es _ => BatchRouted listenFd s es) bs
        (Server.start listenFd) ↔
      ∀ es ∈ bs, Uniform listenFd es := by
  have hdef : ∀ s es, s.Blank → ∃ r, handleBatch listenFd es s = some r ∧ r.1.Blank := by
    intro s es hs
    obtain ⟨q, hq, hblank, -⟩ := exec_handleEntry_blank listenFd (headFd es) es hs
    exact ⟨q, hq, hblank⟩
  have hall : Allowed (handleBatch listenFd) (fun _ _ => True) bs (Server.start listenFd) :=
    allowed_of_forall (fun _ _ => trivial) _ _
  refine (throughout_iff_allowed Server.Blank (C := fun _ es => Uniform listenFd es)
    (fun s es hs _ => ?_) (fun s es r hs _ _ hr => ?_) (blank_start listenFd) hall).trans
    (allowed_iff_forall Server.Blank (fun s es hs _ _ => hdef s es hs) (blank_start listenFd) hall)
  · obtain ⟨r, hr, -⟩ := hdef s es hs
    rw [← batchRouted_iff hs]
    exact ⟨fun ⟨_, _, hrouted⟩ => hrouted, fun hrouted => ⟨r, hr, hrouted⟩⟩
  · obtain ⟨r', hr', hblank⟩ := hdef s es hs
    obtain rfl := Option.some.inj (hr'.symm.trans hr)
    exact hblank

/-- Client 5 connects; then its data and another connection come in together, in this order.
The entry of the listening socket is handled by a `read` on it. -/
theorem read_on_listenFd :
    ¬ ∀ bs : List (List (Entry × Io)), Throughout (handleBatch 4)
      (fun s es _ => BatchRouted 4 s es) bs (Server.start 4) := by
  intro h
  obtain ⟨r, hr, -, r', -, hrouted, -⟩ := h [[Entry.connects 4 5],
    [Entry.sends 5 [104, 105] (by decide) (by decide), Entry.connects 4 6]]
  obtain ⟨q, hq, hblank, -⟩ :=
    exec_handleEntry_blank 4 4 [Entry.connects 4 5] (blank_start 4)
  obtain rfl := Option.some.inj (hq.symm.trans hr)
  have huniform := (batchRouted_iff hblank).1 hrouted
  cases ((huniform (Entry.connects 4 6) (by simp)).1 rfl)

end LibeventLearn.EpollDemo
