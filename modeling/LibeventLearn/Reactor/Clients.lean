import LibeventLearn.Lib.Simulation
import LibeventLearn.Reactor.Serving
import LibeventLearn.Reactor.Sweep

/-!
# One client among others

What the server does for one client depends on the events of that client and the clock, and on
nothing that the other clients do.  And a client whose registration the kernel has refused is not
heard: `event_add` only prints the failure, so that nothing is ever done for the client until the
idle sweep closes its connection.
-/

namespace LibeventLearn.Reactor

open Lib Epoll

variable {io : Io} {p q : Slot} {w w' w₀ v : World} {lfd lfd' cfd t t' now : ℤ} {checkpos : Slot}
  {l : EpollEvent × Io} {es : List (EpollEvent × Io)} {r : World × List Act} {n : ℕ}

/-! ## What is done for one slot -/

/-- The slot an action is done for. -/
def Act.owner : Act → Option Slot
  | .callback p _ _ _ => some p
  | .recv p _ _ => some p
  | .send p _ _ => some p
  | .close p _ _ => some p
  | .accept _ => none

/-- The action is done for the slot `p`. -/
def Act.isFor (p : Slot) (a : Act) : Bool := a.owner = some p

/-- No accept of the step is asked to fill the slot `p`. -/
def LoopStep.Avoids (p : Slot) : LoopStep → Prop
  | .sweep _ _ => True
  | .batch es => ∀ l ∈ es, l.1.ptr = listener → l.2.uninit ≠ p.val

/-- Steps that are the same for the client in the slot `p`: sweeps at the same time, and batches
with the same entries of that client. -/
def SameFor (p : Slot) : LoopStep → LoopStep → Prop
  | .sweep now _, .sweep now' _ => now = now'
  | .batch es, .batch es' =>
    es.filter (fun l => l.1.ptr = p) = es'.filter fun l => l.1.ptr = p
  | _, _ => False

/-- A callback is done for its own slot. -/
lemma CallbackCase.filter_isFor (h : CallbackCase p io w r) (q : Slot) :
    r.2.filter (Act.isFor q) = if q = p then r.2 else [] := by
  rcases h with ⟨_, _, _, _, _, _, hact⟩ | ⟨_, _, _, hact⟩ | ⟨_, _, hact⟩ <;> rw [hact] <;>
    rcases eq_or_ne q p with rfl | hqp <;> simp [Act.isFor, Act.owner, *, Ne.symm]

/-- What a callback does to its slot, and what is seen of it, depends on the slot only. -/
lemma CallbackCase.slot_eq {r' : World × List Act} (h : CallbackCase p io w r)
    (h' : CallbackCase p io v r') (hslot : v.slot p = w.slot p)
    (hopen : v.kernel.isOpen (v.slot p).fd = w.kernel.isOpen (w.slot p).fd) :
    r'.1.slot p = r.1.slot p ∧ r'.2 = r.2 := by
  rcases h with ⟨bytes, hpos, hle, hcb, hrecv, hr, hact⟩ | ⟨hcb, hpos, hr, hact⟩ |
    ⟨hcause, hr, hact⟩ <;>
  rcases h' with ⟨bytes', hpos', hle', hcb', hrecv', hr', hact'⟩ | ⟨hcb', hpos', hr', hact'⟩ |
    ⟨hcause', hr', hact'⟩
  all_goals
    rw [hact, hact', hr.slot_self, hr'.slot_self]
  · rw [hslot] at hrecv' ⊢
    rw [hrecv] at hrecv'
    injection hrecv' with hbytes
    subst hbytes
    exact ⟨rfl, rfl⟩
  · rw [hslot, hcb] at hcb'
    cases hcb'
  · rw [hslot] at hcause'
    simp [hcb, hrecv] at hcause'
  · rw [hslot, hcb] at hcb'
    cases hcb'
  · rw [hslot]
    exact ⟨rfl, rfl⟩
  · rw [hslot] at hcause'
    simp [hcb, not_le.2 hpos] at hcause'
  · rw [hslot] at hcb' hrecv'
    simp [hcb', hrecv'] at hcause
  · rw [hslot] at hcb' hpos'
    simp [hcb', not_le.2 hpos'] at hcause
  · rw [hslot] at hopen ⊢
    rw [hopen]
    exact ⟨rfl, rfl⟩

/-- A callback registers its descriptor under its own slot at most. -/
lemma CallbackCase.interest_self (h : CallbackCase p io w r) :
    (∃ m, r.1.kernel.interest (w.slot p).fd = some (m, p)) ∨
      r.1.kernel.interest (w.slot p).fd = none ∨
      r.1.kernel.interest (w.slot p).fd = w.kernel.interest (w.slot p).fd := by
  rcases h with ⟨_, _, _, _, _, hr, _⟩ | ⟨_, _, hr, _⟩ | ⟨_, hr, _⟩
  · rw [hr.interest_self]
    exact (interestRearm_cases io epollOut p w).imp_left fun h => ⟨_, h⟩
  · rw [hr.interest_self]
    exact (interestRearm_cases io epollIn p w).imp_left fun h => ⟨_, h⟩
  · rw [hr.interest, Function.update_self]
    exact Or.inr (Or.inl rfl)

/-- The client in the slot `p` has been left alone. -/
structure LeftAlone (p : Slot) (w w' : World) : Prop where
  slot : w'.slot p = w.slot p
  interest : ∀ fd m, w'.kernel.interest fd = some (m, p) → w.kernel.interest fd = some (m, p)

lemma LeftAlone.refl (p : Slot) (w : World) : LeftAlone p w w := ⟨rfl, fun _ _ h => h⟩

namespace Serving

/-! ## One entry -/

/-- An entry that is not that of the client, and does not fill its slot, leaves the client
alone. -/
lemma entry_other (h : Serving lfd t w) (hl : Awaited w₀ w l) (hfresh : FreshAccept w l)
    (hp : p ≠ listener) (hne : l.1.ptr ≠ p) (havoid : l.1.ptr = listener → l.2.uninit ≠ p.val)
    (hr : dispatch l w = some r) : LeftAlone p w r.1 ∧ r.2.filter (Act.isFor p) = [] := by
  obtain ⟨e, io⟩ := l
  by_cases he : e.ptr = listener
  · rw [dispatch_listener h.listening he hfresh] at hr
    split at hr
    swap
    · obtain rfl := Option.some.inj hr
      exact ⟨.refl p w, rfl⟩
    obtain ⟨r', hr', rfl⟩ := Option.map_eq_some_iff.1 hr
    have hhead : Act.isFor p (.callback listener .acceptconn lfd true) = false := by
      simp [Act.isFor, Act.owner, hp.symm]
    have hcase := acceptStep_cases io w
    rw [hr'] at hcase
    rw [List.filter_cons_of_neg (by simp [hhead])]
    cases hcase with
    | failed haccept => exact ⟨.refl p w, rfl⟩
    | kept cfd haccept hin hk => exact ⟨⟨rfl, fun _ _ h => h⟩, rfl⟩
    | filled cfd q w' haccept hq hi hf hslot =>
      have hpq : p ≠ q := by
        rintro rfl
        exact havoid he hi
      refine ⟨⟨hslot.slot_of_ne p hpq, fun fd m hreg => ?_⟩, rfl⟩
      rcases eq_or_ne fd cfd with rfl | hfd
      · rw [hslot.interest_self] at hreg
        split at hreg
        · exact absurd (congrArg Prod.snd (Option.some.inj hreg)).symm hpq
        · exact hreg
      · rwa [hslot.interest_of_ne fd hfd] at hreg
  · obtain ⟨hlive, m, -, hm, hbits⟩ := hl he
    rcases dispatch_once io (h.paired e.ptr he hlive) hm hbits with ⟨-, hr'⟩ | ⟨r', -, hcase, hr'⟩
    · obtain rfl := Option.some.inj (hr.symm.trans hr')
      exact ⟨.refl p w, rfl⟩
    · obtain rfl := Option.some.inj (hr.symm.trans hr')
      have hu := hcase.untouched
      refine ⟨⟨hu.slot p hne.symm, fun fd m hreg => ?_⟩, ?_⟩
      · rcases eq_or_ne fd (w.slot e.ptr).fd with rfl | hfd
        · rcases hcase.interest_self with ⟨m', heq⟩ | heq | heq
          · rw [heq] at hreg
            exact absurd (congrArg Prod.snd (Option.some.inj hreg)) hne
          · rw [heq] at hreg
            cases hreg
          · rwa [heq] at hreg
        · rwa [hu.interest fd hfd] at hreg
      · rw [List.filter_cons_of_neg (by simpa [Act.isFor, Act.owner] using hne),
          hcase.filter_isFor, if_neg (Ne.symm hne)]

/-- An entry of the client does the same wherever its slot holds the same. -/
lemma entry_self (h : Serving lfd t w) (h' : Serving lfd' t' v) (hslot : v.slot p = w.slot p)
    (hp : p ≠ listener) (he : l.1.ptr = p) (hl : Awaited w₀ w l) {r' : World × List Act}
    (hr : dispatch l w = some r) (hr' : dispatch l v = some r') :
    r'.1.slot p = r.1.slot p ∧ r'.2 = r.2 := by
  obtain ⟨e, io⟩ := l
  obtain rfl : e.ptr = p := he
  obtain ⟨hlive, m, -, hm, hbits⟩ := hl hp
  have hlive' : (v.slot e.ptr).status = 1 := by rw [hslot]; exact hlive
  have hopen := h.isOpen _ hp hlive
  have hopen' := h'.isOpen _ hp hlive'
  rcases dispatch_once io (h.paired _ hp hlive) hm hbits with
    ⟨hno, heq⟩ | ⟨q, ⟨hyes, -⟩, hcase, heq⟩ <;>
  rcases dispatch_once io (h'.paired _ hp hlive') hm hbits with
    ⟨hno', heq'⟩ | ⟨q', ⟨hyes', -⟩, hcase', heq'⟩
  all_goals
    obtain rfl := Option.some.inj (hr.symm.trans heq)
    obtain rfl := Option.some.inj (hr'.symm.trans heq')
  · exact ⟨hslot, rfl⟩
  · rw [hslot, hno] at hyes'
    cases hyes'
  · rw [hslot, hyes] at hno'
    cases hno'
  · obtain ⟨hq, hacts⟩ := hcase.slot_eq hcase' hslot (by rw [hopen, hopen'])
    refine ⟨hq, ?_⟩
    show _ :: q'.2 = _ :: q.2
    rw [hacts, hopen, hopen', hslot]

/-! ## One batch -/

/-- What holds of the entries of a batch. -/
def BatchLegal (lfd t : ℤ) (w₀ : World) (p : Slot) (w : World) (l : EpollEvent × Io) : Prop :=
  (Serving lfd t w ∧ Awaited w₀ w l) ∧ FreshAccept w l ∧
    (l.1.ptr = listener → l.2.uninit ≠ p.val)

/-- A batch does the same to a client as the entries of that client alone, wherever the slot of
the client holds the same. -/
lemma batch_project (hp : p ≠ listener) {q : World × List Act}
    (hes : Allowed dispatch (BatchLegal lfd t w₀ p) es w) (h' : Serving lfd' t' v)
    (hslot : v.slot p = w.slot p) (hq : exec dispatch es w = some q) :
    ∃ q', exec dispatch (es.filter fun l => l.1.ptr = p) v = some q' ∧
      q'.1.slot p = q.1.slot p ∧ q.2.filter (Act.isFor p) = q'.2.filter (Act.isFor p) := by
  induction es generalizing w v q with
  | nil =>
    obtain rfl : (w, []) = q := Option.some.inj hq
    exact ⟨(v, []), rfl, hslot, rfl⟩
  | cons l es ih =>
    obtain ⟨⟨⟨h, hl⟩, hfresh, havoid⟩, hrest⟩ := hes
    obtain ⟨r₁, r₂, hr₁, hr₂, rfl⟩ := exec_cons_eq_some.1 hq
    by_cases he : l.1.ptr = p
    · have hl' : Awaited w₀ v l := by
        intro hp'
        rw [he, hslot, ← he]
        exact hl hp'
      obtain ⟨r', hr', hright, -⟩ := h'.client_entry (by rwa [he]) hl'
      obtain ⟨hslot', hacts⟩ := h.entry_self h' hslot hp he hl hr₁ hr'
      obtain ⟨q', hq', hend, hfilter⟩ := ih (hrest r₁ hr₁) hright.serving hslot' hr₂
      rw [List.filter_cons_of_pos (by simpa using he)]
      refine ⟨_, exec_cons_eq_some.2 ⟨r', q', hr', hq', rfl⟩, hend, ?_⟩
      rw [List.filter_append, List.filter_append, hacts, hfilter]
    · obtain ⟨halone, hnone⟩ := h.entry_other hl hfresh hp he havoid hr₁
      obtain ⟨q', hq', hend, hfilter⟩ := ih (hrest r₁ hr₁) h' (hslot.trans halone.slot.symm) hr₂
      rw [List.filter_cons_of_neg (by simpa using he)]
      refine ⟨q', hq', hend, ?_⟩
      rw [List.filter_append, hnone, List.nil_append, hfilter]

/-- A batch without an entry of the client leaves the client alone. -/
lemma batch_other (hp : p ≠ listener) {q : World × List Act}
    (hes : Allowed dispatch (BatchLegal lfd t w₀ p) es w) (hne : ∀ l ∈ es, l.1.ptr ≠ p)
    (hq : exec dispatch es w = some q) :
    LeftAlone p w q.1 ∧ q.2.filter (Act.isFor p) = [] := by
  have hrun := exec_inv_outputs (LeftAlone p w) (D := fun a => ¬ Act.isFor p a = true) ?_
    (.refl p w) (hes.and_forall hne) hq
  · exact hrun.imp_right List.filter_eq_nil_iff.2
  · rintro w' l r halone ⟨⟨⟨h, hl⟩, hfresh, havoid⟩, hne⟩ hr
    obtain ⟨halone', hnone⟩ := h.entry_other hl hfresh hp hne havoid hr
    exact ⟨⟨halone'.slot.trans halone.slot,
      fun fd m hreg => halone.interest fd m (halone'.interest fd m hreg)⟩,
      List.filter_eq_nil_iff.1 hnone⟩

/-- The entries of a batch are as the lemmas above expect them. -/
lemma batchLegal {s : World × Slot} (h : Serving lfd t s.1) (hl : ServerLegal s (.batch es))
    (hlucky : LoopLucky s (.batch es)) (havoid : (LoopStep.batch es).Avoids p) :
    Allowed dispatch (BatchLegal lfd t s.1 p) es s.1 := by
  obtain ⟨hdistinct, hes⟩ := h.awaited hl.1
  exact (h.batch_allowed hdistinct hes hl.2 hlucky).and (hl.2.and_forall havoid)

/-! ## One sweep -/

/-- The sweep closes the connection of the client if it comes to it and finds it idle, and leaves
the client alone otherwise. -/
lemma sweep_client (io : Io) (now : ℤ) (n : ℕ) (checkpos : Slot) (h : Serving lfd t w)
    (hp : p ≠ listener) :
    (p ∈ inspected n checkpos ∧ Idle now (w.slot p) →
        (Reactor.sweep io now n checkpos w).1.1.slot p = (w.slot p).absent ∧
          (Reactor.sweep io now n checkpos w).2.filter (Act.isFor p) =
            [.close p (w.slot p).fd true]) ∧
      (¬ (p ∈ inspected n checkpos ∧ Idle now (w.slot p)) →
        (Reactor.sweep io now n checkpos w).1.1.slot p = w.slot p ∧
          (Reactor.sweep io now n checkpos w).2.filter (Act.isFor p) = []) := by
  induction n generalizing checkpos w with
  | zero => exact ⟨fun h => absurd h.1 List.not_mem_nil, fun _ => ⟨rfl, rfl⟩⟩
  | succ n ih =>
    rw [inspected, Reactor.sweep, List.mem_cons]
    dsimp only
    set p₀ : Slot := (wrapPos checkpos).castSucc
    have hp₀ : p₀ ≠ listener := castSucc_ne_listener _
    by_cases hidle : Idle now (w.slot p₀)
    swap
    · rw [sweepSlot_not_idle hidle]
      refine ⟨fun hyes => ?_, fun hno => ?_⟩
      · refine (ih _ h).1 ⟨hyes.1.resolve_left ?_, hyes.2⟩
        rintro rfl
        exact hidle hyes.2
      · exact (ih _ h).2 fun hyes => hno ⟨Or.inr hyes.1, hyes.2⟩
    obtain ⟨hd, hact⟩ := sweepSlot_idle io hidle
    have hih := ih (wrapPos checkpos).succ (h.dropped hp₀ hidle.1 hd)
    rw [List.filter_append, hact, h.isOpen p₀ hp₀ hidle.1]
    by_cases hpp : p = p₀
    · subst hpp
      have habsent := hd.slot_absent hidle.1
      have hnone := hih.2 fun hi => by
        rw [habsent] at hi
        cases hi.2.1
      rw [hnone.1, hnone.2, habsent]
      refine ⟨fun _ => ⟨rfl, ?_⟩, fun hno => absurd ⟨Or.inl rfl, hidle⟩ hno⟩
      simp [Act.isFor, Act.owner]
    · rw [hd.slot_of_ne p hpp] at hih
      have hskip : List.filter (Act.isFor p) [.close p₀ (w.slot p₀).fd true] = [] := by
        simp [Act.isFor, Act.owner, Ne.symm hpp]
      rw [hskip, List.nil_append]
      refine ⟨fun hyes => hih.1 ⟨hyes.1.resolve_left hpp, hyes.2⟩, fun hno => hih.2 ?_⟩
      exact fun hyes => hno ⟨Or.inr hyes.1, hyes.2⟩

end Serving

/-- Where the next sweep begins does not depend on the world. -/
lemma sweep_checkpos (io io' : Io) (now : ℤ) (n : ℕ) (checkpos : Slot) (w v : World) :
    (sweep io now n checkpos w).1.2 = (sweep io' now n checkpos v).1.2 := by
  induction n generalizing checkpos w v with
  | zero => rfl
  | succ n ih => exact ih _ _ _

/-- The sweep registers nothing. -/
lemma sweep_interest {fd : ℤ} {m : Mask}
    (h : (sweep io now n checkpos w).1.1.kernel.interest fd = some (m, p)) :
    w.kernel.interest fd = some (m, p) := by
  induction n generalizing checkpos w with
  | zero => exact h
  | succ n ih =>
    have hslot := ih h
    by_cases hidle : Idle now (w.slot (wrapPos checkpos).castSucc)
    · rw [(sweepSlot_idle io hidle).1.interest, Function.update_apply] at hslot
      split at hslot
      · cases hslot
      · exact hslot
    · rwa [sweepSlot_not_idle hidle] at hslot

/-! ## Two runs -/

/-- What is assumed of a step. -/
def ClientLegal (p : Slot) (s : World × Slot) (l : LoopStep) : Prop :=
  (ServerLegal s l ∧ LoopLucky s l) ∧ l.Avoids p

/-- Both servers are in order, and the slot `p` holds the same. -/
structure AlikeFor (p : Slot) (lfd t lfd' t' : ℤ) (s s' : World × Slot) : Prop where
  serving : Serving lfd t s.1
  serving' : Serving lfd' t' s'.1
  slot : s'.1.slot p = s.1.slot p
  checkpos : s'.2 = s.2

/-- **One step, twice.** -/
lemma AlikeFor.loopStep {s s' : World × Slot} (h : AlikeFor p lfd t lfd' t' s s')
    (hp : p ≠ listener) {l l' : LoopStep} (hsame : SameFor p l l') (hl : ClientLegal p s l)
    (hl' : ClientLegal p s' l') {r r' : (World × Slot) × List Act}
    (hr : loopStep l s = some r) (hr' : loopStep l' s' = some r') :
    AlikeFor p lfd t lfd' t' r.1 r'.1 ∧ r.2.filter (Act.isFor p) = r'.2.filter (Act.isFor p) := by
  obtain ⟨q, hq, hserving⟩ := (h.serving.step_iff hl.1.1).2 hl.1.2
  obtain rfl := Option.some.inj (hr.symm.trans hq)
  obtain ⟨q', hq', hserving'⟩ := (h.serving'.step_iff hl'.1.1).2 hl'.1.2
  obtain rfl := Option.some.inj (hr'.symm.trans hq')
  suffices hsuff : r'.1.1.slot p = r.1.1.slot p ∧ r'.1.2 = r.1.2 ∧
      r.2.filter (Act.isFor p) = r'.2.filter (Act.isFor p) from
    ⟨⟨hserving.1, hserving'.1, hsuff.1, hsuff.2.1⟩, hsuff.2.2⟩
  cases l with
  | sweep now io =>
    cases l' with
    | batch es => exact absurd hsame id
    | sweep now' io' =>
      obtain rfl : now = now' := hsame
      have hcp := sweep_checkpos io' io now 100 s.2 s'.1 s.1
      have hone := h.serving.sweep_client io now 100 s.2 hp
      have htwo := h.serving'.sweep_client io' now 100 s.2 hp
      rw [h.slot] at htwo
      obtain rfl : Reactor.sweep io now 100 s.2 s.1 = r := Option.some.inj hr
      obtain rfl : Reactor.sweep io' now 100 s'.2 s'.1 = r' := Option.some.inj hr'
      rw [h.checkpos]
      by_cases hi : p ∈ inspected 100 s.2 ∧ Idle now (s.1.slot p)
      · obtain ⟨hslot, hacts⟩ := hone.1 hi
        obtain ⟨hslot', hacts'⟩ := htwo.1 hi
        exact ⟨hslot'.trans hslot.symm, hcp, hacts.trans hacts'.symm⟩
      · obtain ⟨hslot, hacts⟩ := hone.2 hi
        obtain ⟨hslot', hacts'⟩ := htwo.2 hi
        exact ⟨hslot'.trans hslot.symm, hcp, hacts.trans hacts'.symm⟩
  | batch es =>
    cases l' with
    | sweep now io => exact absurd hsame id
    | batch es' =>
      obtain ⟨r₁, hr₁, rfl⟩ := Option.map_eq_some_iff.1 hr
      obtain ⟨r₁', hr₁', rfl⟩ := Option.map_eq_some_iff.1 hr'
      -- both are the same as the entries of the client alone, in the first world
      obtain ⟨v, hv, hslot, hacts⟩ := Serving.batch_project hp
        (h.serving.batchLegal hl.1.1 hl.1.2 hl.2) h.serving rfl hr₁
      obtain ⟨v', hv', hslot', hacts'⟩ := Serving.batch_project hp
        (h.serving'.batchLegal hl'.1.1 hl'.1.2 hl'.2) h.serving h.slot.symm hr₁'
      have hfilter : es.filter (fun l => l.1.ptr = p) = es'.filter fun l => l.1.ptr = p := hsame
      rw [hfilter] at hv
      obtain rfl := Option.some.inj (hv.symm.trans hv')
      exact ⟨hslot'.symm.trans hslot, h.checkpos, hacts.trans hacts'.symm⟩

/-- **What the server does for a client does not depend on the others.**  Take two runs of servers
in order, with any listening sockets, other clients and answers of `epoll_ctl`, that start with
the same slot `p` and the same `checkpos`.  If the clock of the sweeps and the entries of the
slot `p` in the batches are the same, then all that is done for the slot `p` is the same, and the
slot holds the same in the end, whatever the other entries of the batches are and bring about. -/
theorem client_independent (p : Slot) (hp : p ≠ listener) (lfd t lfd' t' : ℤ)
    (s s' : World × Slot) (h : AlikeFor p lfd t lfd' t' s s') (ls ls' : List LoopStep)
    (hsame : List.Forall₂ (SameFor p) ls ls') (hls : Allowed loopStep (ClientLegal p) ls s)
    (hls' : Allowed loopStep (ClientLegal p) ls' s') :
    ∃ q q', exec loopStep ls s = some q ∧ exec loopStep ls' s' = some q' ∧
      q'.1.1.slot p = q.1.1.slot p ∧
        q.2.filter (Act.isFor p) = q'.2.filter (Act.isFor p) := by
  obtain ⟨q, hq, -⟩ := h.serving.exec_ne_none (hls.imp fun _ _ hl => hl.1.1)
    (hls.imp fun _ _ hl => hl.1.2)
  obtain ⟨q', hq', -⟩ := h.serving'.exec_ne_none (hls'.imp fun _ _ hl => hl.1.1)
    (hls'.imp fun _ _ hl => hl.1.2)
  obtain ⟨hend, hacts⟩ := exec_agree (Act.isFor p) (SameFor p) (AlikeFor p lfd t lfd' t')
    (fun s s' l l' r r' h hsame hl hl' hr hr' => h.loopStep hp hsame hl hl' hr hr')
    hsame h hls hls' hq hq'
  exact ⟨q, q', hq, hq', hend.slot, hacts⟩

/-! ## A client that the kernel has refused -/

/-- Nothing is registered under the slot `p`. -/
def Deaf (p : Slot) (w : World) : Prop := ∀ fd m, w.kernel.interest fd ≠ some (m, p)

lemma LeftAlone.deaf (h : LeftAlone p w w') (hdeaf : Deaf p w) : Deaf p w' :=
  fun fd m hreg => hdeaf fd m (h.interest fd m hreg)

/-- **One step**, for a client that is not registered: nothing is done for it, or it is found
idle and closed. -/
lemma Serving.deaf_step {s : World × Slot} (h : Serving lfd t s.1) (hdeaf : Deaf p s.1)
    (hp : p ≠ listener) {l : LoopStep} (hl : ClientLegal p s l)
    {r : (World × Slot) × List Act} (hr : loopStep l s = some r) :
    (Serving lfd t r.1.1 ∧ Deaf p r.1.1) ∧
      (r.1.1.slot p = s.1.slot p ∧ r.2.filter (Act.isFor p) = [] ∨
        (s.1.slot p).status = 1 ∧ r.1.1.slot p = (s.1.slot p).absent ∧
          r.2.filter (Act.isFor p) = [.close p (s.1.slot p).fd true]) := by
  obtain ⟨q, hq, hserving⟩ := (h.step_iff hl.1.1).2 hl.1.2
  obtain rfl := Option.some.inj (hr.symm.trans hq)
  cases l with
  | sweep now io =>
    have hclient := h.sweep_client io now 100 s.2 hp
    obtain rfl : Reactor.sweep io now 100 s.2 s.1 = r := Option.some.inj hr
    refine ⟨⟨hserving.1, fun fd m hreg => hdeaf fd m (sweep_interest hreg)⟩, ?_⟩
    by_cases hi : p ∈ inspected 100 s.2 ∧ Idle now (s.1.slot p)
    · exact Or.inr ⟨hi.2.1, hclient.1 hi⟩
    · exact Or.inl (hclient.2 hi)
  | batch es =>
    obtain ⟨r₁, hr₁, rfl⟩ := Option.map_eq_some_iff.1 hr
    -- `epoll_wait` returns registered slots only
    have hne : ∀ l ∈ es, l.1.ptr ≠ p := by
      rintro l hmem rfl
      obtain ⟨-, m, hreg, -⟩ := (h.awaited hl.1.1.1).2 l hmem hp
      exact hdeaf _ m hreg
    obtain ⟨halone, hnone⟩ := batch_other hp (h.batchLegal hl.1.1 hl.1.2 hl.2) hne hr₁
    exact ⟨⟨hserving.1, halone.deaf hdeaf⟩, Or.inl ⟨halone.slot, hnone⟩⟩

/-- **A run.** -/
lemma Serving.deaf_run (hp : p ≠ listener) {ls : List LoopStep} {s : World × Slot}
    {q : (World × Slot) × List Act} (h : Serving lfd t s.1) (hdeaf : Deaf p s.1)
    (hls : Allowed loopStep (ClientLegal p) ls s) (hq : exec loopStep ls s = some q) :
    Deaf p q.1.1 ∧
      ((q.1.1.slot p = s.1.slot p ∧ q.2.filter (Act.isFor p) = [] ∧
          ∀ la, Kept p la s.1 → Allowed loopStep (fun s _ => Kept p la s.1) ls s) ∨
        (s.1.slot p).status = 1 ∧ q.1.1.slot p = (s.1.slot p).absent ∧
          q.2.filter (Act.isFor p) = [.close p (s.1.slot p).fd true]) := by
  induction ls generalizing s q with
  | nil =>
    obtain rfl : (s, []) = q := Option.some.inj hq
    exact ⟨hdeaf, Or.inl ⟨rfl, rfl, fun _ _ => trivial⟩⟩
  | cons l ls ih =>
    obtain ⟨r, q', hr, hq', rfl⟩ := exec_cons_eq_some.1 hq
    obtain ⟨⟨h', hdeaf'⟩, hfirst⟩ := h.deaf_step hdeaf hp hls.1 hr
    obtain ⟨hdeaf'', hrest⟩ := ih h' hdeaf' (hls.2 r hr) hq'
    refine ⟨hdeaf'', ?_⟩
    rw [List.filter_append]
    rcases hfirst with ⟨hslot, hnone⟩ | ⟨hs, hslot, hclose⟩
    · rw [hslot] at hrest
      rw [hnone, List.nil_append]
      refine hrest.imp_left fun hsame => ⟨hsame.1, hsame.2.1, fun la hla => ⟨hla, ?_⟩⟩
      intro r' hr'
      obtain rfl := Option.some.inj (hr.symm.trans hr')
      refine hsame.2.2 la ?_
      rwa [Kept, hslot]
    · -- closed once, it is not monitored any more
      rcases hrest with ⟨hend, hacts, -⟩ | ⟨hs', -⟩
      · refine Or.inr ⟨hs, hend.trans hslot, ?_⟩
        rw [hclose, hacts]
        rfl
      · rw [hslot] at hs'
        cases hs'

/-- **A client that the kernel has refused is never heard, and is closed for it.**  In a run from
a state in which a monitored client is not registered, nothing at all is done for the client but
for one `close` of its open descriptor, by a sweep; and once the sweeps have come round while its
time is over, that has been done. -/
theorem refused_client_unheard (p : Slot) (hp : p ≠ listener) (lfd t : ℤ) (s : World × Slot)
    (h : Serving lfd t s.1) (hs : (s.1.slot p).status = 1) (hdeaf : Deaf p s.1)
    (ls : List LoopStep) (hls : Allowed loopStep (ClientLegal p) ls s) :
    ∃ q, exec loopStep ls s = some q ∧
      (q.1.1.slot p = s.1.slot p ∧ q.2.filter (Act.isFor p) = [] ∨
        q.1.1.slot p = (s.1.slot p).absent ∧
          q.2.filter (Act.isFor p) = [.close p (s.1.slot p).fd true]) ∧
      (11 ≤ ls.countP LoopStep.isSweep →
        (∀ now io, .sweep now io ∈ ls → (s.1.slot p).lastActive + 60 ≤ now) →
          q.1.1.slot p = (s.1.slot p).absent ∧
            q.2.filter (Act.isFor p) = [.close p (s.1.slot p).fd true]) := by
  obtain ⟨q, hq, -⟩ := h.exec_ne_none (hls.imp fun _ _ hl => hl.1.1)
    (hls.imp fun _ _ hl => hl.1.2)
  obtain ⟨-, hrun⟩ := h.deaf_run hp hdeaf hls hq
  refine ⟨q, hq, ?_, fun hcount hlate => ?_⟩
  · exact hrun.imp (fun hsame => ⟨hsame.1, hsame.2.1⟩) And.right
  · rcases hrun with ⟨hend, -, hkept⟩ | ⟨-, hclosed⟩
    swap
    · exact hclosed
    have haway : away p s.2 < maxEvents := Nat.mod_lt _ (Nat.succ_pos _)
    have hcovered : Covered p ls s := by
      refine covered_of_away hp hq ?_
      unfold maxEvents at haway
      omega
    refine absurd ?_ (not_kept_of_covered hcovered hq hlate (hkept _ ⟨hs, rfl⟩))
    rw [Kept, hend]
    exact ⟨hs, rfl⟩

/-! ## Two clients of which one is refused -/

/-- The environment of an accept into the slot `i`, whose registration is granted or refused. -/
def Io.admitting (granted : Bool) (cfd i : ℤ) : Io :=
  { Io.accepting cfd i with ctl := fun _ _ => granted }

/-- A new connection, which is deaf if the registration is refused. -/
lemma Serving.newcomer (h : Serving lfd t w) (granted : Bool)
    (hnew : w.kernel.isOpen cfd = false) (hp : p ≠ listener) (hfree : (w.slot p).status = 0) :
    ∃ w', Serving lfd t w' ∧
      w'.slot p = (eventSet cfd .recvdata p 0 (w.slot p)).monitor epollIn ∧
      (∀ q ≠ p, w'.slot q = w.slot q) ∧
      w'.kernel.isOpen = Function.update w.kernel.isOpen cfd true ∧
      (granted = false → Deaf p w') := by
  have hfresh : ∀ cfd', (Io.admitting granted cfd p.val).accept = some cfd' →
      w.kernel.isOpen cfd' = false := by
    intro cfd' hcfd
    rwa [← Option.some.inj hcfd]
  have haccept : (Io.admitting granted cfd p.val).accept = some cfd := rfl
  obtain ⟨w', hw', hslot⟩ := acceptStep_admit w haccept rfl hp le_rfl
  have hlisten : Listening (some (epollIn, listener)) lfd t w' :=
    (h.listening.accepted hfresh hw').1
  refine ⟨w', h.admitted hnew hp hfree hslot hlisten, hslot.slot_self, hslot.slot_of_ne,
    hslot.isOpen, fun hno fd m hreg => ?_⟩
  have hreg' : w.kernel.interest fd = some (m, p) := by
    rcases eq_or_ne fd cfd with rfl | hfd
    · rwa [hslot.interest_self, if_neg (by simp [Io.admitting, hno])] at hreg
    · rwa [hslot.interest_of_ne fd hfd] at hreg
  have hs := (h.sole fd m p hp hreg').1
  rw [hfree] at hs
  cases hs

lemma one_ne_listener : (1 : Slot) ≠ listener := by decide

/-- The client of descriptor 5 is treated the same, whether or not its registration has been
granted and another client comes. -/
theorem client_independent_newcomer :
    ∃ w w' : World, (w.slot 0).status = 1 ∧
      ∃ q q', exec loopStep [.batch [], .sweep 60 (Io.still true)] (w, 0) = some q ∧
        exec loopStep [.batch [knock 6 1], .sweep 60 (Io.still true)] (w', 0) = some q' ∧
        q'.1.1.slot 0 = q.1.1.slot 0 ∧
          q.2.filter (Act.isFor 0) = q'.2.filter (Act.isFor 0) := by
  have hstart : Serving 4 0 (World.started (Io.still true) 4).1 :=
    @serving_started (Io.still true) 4 rfl
  have hclosed : (World.started (Io.still true) 4).1.kernel.isOpen 5 = false :=
    started_closed (by decide)
  have hfree : ((World.started (Io.still true) 4).1.slot 0).status = 0 :=
    started_free zero_ne_listener
  obtain ⟨w, h, hslot, -⟩ := hstart.newcomer true hclosed zero_ne_listener hfree
  obtain ⟨w', h', hslot', hother, hopen, -⟩ :=
    hstart.newcomer false hclosed zero_ne_listener hfree
  refine ⟨w, w', by rw [hslot]; rfl, ?_⟩
  refine client_independent 0 zero_ne_listener 4 0 4 0 (w, 0) (w', 0)
    ⟨h, h', hslot'.trans hslot.symm, rfl⟩ _ _ (.cons ?_ (.cons rfl .nil)) ?_ ?_
  · simp [SameFor, knock]
  · exact ⟨⟨⟨⟨⟨[], List.nodup_nil, .nil⟩, trivial⟩, trivial⟩,
        fun l hl => absurd hl List.not_mem_nil⟩,
      fun _ _ => ⟨⟨⟨trivial, trivial⟩, trivial⟩, fun _ _ => trivial⟩⟩
  · have hsix : w'.kernel.isOpen 6 = false := by
      rw [hopen, Function.update_of_ne (by decide)]
      exact started_closed (by decide)
    have hone : (w'.slot 1).status = 0 := by
      rw [hother 1 (by decide)]
      exact started_free one_ne_listener
    refine ⟨⟨⟨h'.knock_legal 1 hsix, knock_lucky one_ne_listener hone⟩, ?_⟩,
      fun _ _ => ⟨⟨⟨trivial, trivial⟩, trivial⟩, fun _ _ => trivial⟩⟩
    refine List.forall_mem_singleton.2 fun _ => ?_
    exact Int.one_ne_zero

/-- A client whose registration was refused. -/
theorem refused_client_unheard_newcomer :
    ∃ w : World, Deaf 0 w ∧
      ∃ q, exec loopStep (List.replicate 11 (.sweep 60 (Io.still true))) (w, 0) = some q ∧
        q.2.filter (Act.isFor 0) = [.close 0 5 true] := by
  have hstart : Serving 4 0 (World.started (Io.still true) 4).1 :=
    @serving_started (Io.still true) 4 rfl
  have hclosed : (World.started (Io.still true) 4).1.kernel.isOpen 5 = false :=
    started_closed (by decide)
  obtain ⟨w, h, hslot, -, -, hdeaf⟩ :=
    hstart.newcomer false hclosed zero_ne_listener (started_free zero_ne_listener)
  have hlegal : ∀ n s, Allowed loopStep (ClientLegal 0)
      (List.replicate n (.sweep 60 (Io.still true))) s := by
    intro n
    induction n with
    | zero => exact fun _ => trivial
    | succ n ih => exact fun s => ⟨⟨⟨trivial, trivial⟩, trivial⟩, fun r _ => ih r.1⟩
  refine ⟨w, hdeaf rfl, ?_⟩
  obtain ⟨q, hq, -, hclosed⟩ := refused_client_unheard 0 zero_ne_listener 4 0 (w, 0) h
    (by rw [hslot]; rfl) (hdeaf rfl) (List.replicate 11 (.sweep 60 (Io.still true)))
    (hlegal 11 (w, 0))
  refine ⟨q, hq, ?_⟩
  rw [(hclosed ?_ fun now io hmem => ?_).2, hslot]
  · rfl
  · rw [List.countP_replicate]
    exact le_rfl
  · obtain ⟨rfl, -⟩ := LoopStep.sweep.inj (List.eq_of_mem_replicate hmem)
    rw [hslot]
    decide

end LibeventLearn.Reactor
