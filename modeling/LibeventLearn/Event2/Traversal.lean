import LibeventLearn.Event2.TailQueue

/-!
# Going through a tail queue

`TAILQ_INSERT_BEFORE` gives the new node a wrong back pointer.  `TAILQ_FOREACH` of
`event-internal.h` does not look at back pointers, so that it does not notice, until another node
is inserted before that one: then a node behind it is made to lead back to it, and the loop never
ends, or a place that holds no pointer is written to.
-/

namespace LibeventLearn.Event2

open Lib

variable {N : Type}

/-- The rounds of `TAILQ_FOREACH` from `var` on, at most `fuel`; the result are the nodes that the
body is run for. -/
def tailqForeachFrom (tailq : TailQueue N) : ℕ → Option N → Option (List N)
  | _, none => some []
  | 0, some _ => none
  | fuel + 1, some var =>
    (tailqForeachFrom tailq fuel (tailq.tqeNext var)).map fun ns => var :: ns

/-- `TAILQ_FOREACH`. -/
def tailqForeach (fuel : ℕ) (tailq : TailQueue N) : Option (List N) :=
  tailqForeachFrom tailq fuel tailq.tqhFirst

/-- The loop comes to an end, after it has gone through these nodes. -/
def TailQueue.Visits (tailq : TailQueue N) (ns : List N) : Prop :=
  ∃ fuel, tailqForeach fuel tailq = some ns

variable [DecidableEq N]

/-- The sequence with `elm` before `listelm`. -/
def insertBefore (listelm elm : N) : List N → List N
  | [] => []
  | n :: ns => if n = listelm then elm :: n :: ns else n :: insertBefore listelm elm ns

/-- A queue, the sequence that it should hold, and the nodes that were inserted. -/
structure Queued (N : Type) where
  tailq : TailQueue N
  nodes : List N
  inserted : List N

/-- One insertion. -/
def queueStep (layout : Layout N) (l : N × N) (q : Queued N) : Option (Queued N × List Unit) :=
  (tailqInsertBefore layout l.1 l.2 q.tailq).toOption.map fun tailq =>
    (⟨tailq, insertBefore l.1 l.2 q.nodes, l.2 :: q.inserted⟩, [])

/-- The insertion is undefined, or the loop never ends after it. -/
def Endless (layout : Layout N) (q : Queued N) (l : N × N) : Prop :=
  ∀ r, queueStep layout l q = some r → ∀ ns, ¬ r.1.tailq.Visits ns

/-- A new node is inserted before one of the queue. -/
def Insertable (q : Queued N) (l : N × N) : Prop := l.1 ∈ q.nodes ∧ l.2 ∉ q.nodes

instance {q : Queued N} {l : N × N} : Decidable (Insertable q l) :=
  inferInstanceAs (Decidable (_ ∧ _))

variable {layout : Layout N} {tailq tailq' : TailQueue N} {xs ys ns ms : List N}
  {listelm elm n y : N} {loc : Loc N} {q : Queued N} {l : N × N}

/-! ## The loop -/

omit [DecidableEq N] in
lemma exists_foreachFrom_iff {var : Option N} :
    (∃ fuel, tailqForeachFrom tailq fuel var = some ns) ↔ Leads tailq.tqeNext var ns := by
  constructor
  · rintro ⟨fuel, h⟩
    induction fuel generalizing var ns with
    | zero =>
      cases var with
      | none =>
        obtain rfl : [] = ns := Option.some.inj h
        rfl
      | some var => cases h
    | succ fuel ih =>
      cases var with
      | none =>
        obtain rfl : [] = ns := Option.some.inj h
        rfl
      | some var =>
        obtain ⟨ms, hms, rfl⟩ := Option.map_eq_some_iff.1 h
        exact ⟨rfl, ih hms⟩
  · intro h
    induction ns generalizing var with
    | nil =>
      obtain rfl := leads_nil.1 h
      exact ⟨0, rfl⟩
    | cons n ns ih =>
      obtain ⟨rfl, h⟩ := h
      obtain ⟨fuel, hfuel⟩ := ih h
      exact ⟨fuel + 1, by rw [tailqForeachFrom, hfuel]; rfl⟩

omit [DecidableEq N] in
/-- The loop goes through the chain of the queue. -/
lemma visits_iff_leads : tailq.Visits ns ↔ Leads tailq.tqeNext tailq.tqhFirst ns :=
  exists_foreachFrom_iff

/-! ## The sequence -/

lemma insertBefore_append (h : listelm ∉ xs) :
    insertBefore listelm elm (xs ++ listelm :: ys) = xs ++ elm :: listelm :: ys := by
  induction xs with
  | nil => exact if_pos rfl
  | cons x xs ih =>
    rw [List.mem_cons, not_or] at h
    rw [List.cons_append, insertBefore, if_neg (Ne.symm h.1), ih h.2, List.cons_append]

omit [DecidableEq N] in
/-- Another node of a sequence is behind the first one, or before it. -/
lemma append_cons_eq_cases {xs' ys' : List N} (h : xs' ++ n :: ys' = xs ++ listelm :: ys)
    (hne : n ≠ listelm) :
    (∃ zs, xs' = xs ++ listelm :: zs ∧ ys = zs ++ n :: ys') ∨
      ∃ zs, xs = xs' ++ n :: zs ∧ ys' = zs ++ listelm :: ys := by
  rcases List.append_eq_append_iff.1 h with ⟨zs, hzs, hys⟩ | ⟨zs, hzs, hys⟩
  · cases zs with
    | nil => exact absurd (List.head_eq_of_cons_eq hys) hne
    | cons z zs =>
      obtain ⟨rfl, rfl⟩ := List.cons_eq_cons.1 hys
      exact Or.inr ⟨zs, hzs, rfl⟩
  · cases zs with
    | nil => exact absurd (List.head_eq_of_cons_eq hys).symm hne
    | cons z zs =>
      obtain ⟨rfl, rfl⟩ := List.cons_eq_cons.1 hys
      exact Or.inl ⟨zs, hzs, rfl⟩

/-! ## The invariant -/

/-- The place holds no pointer, or is in a node behind. -/
def Behind (loc : Loc N) (ys : List N) : Prop :=
  (∃ a, loc = .other a) ∨ ∃ y ∈ ys, loc = .next y

omit [DecidableEq N] in
lemma Behind.mono {zs : List N} (h : Behind loc ys) (hsub : ∀ y ∈ ys, y ∈ zs) : Behind loc zs :=
  h.imp_right fun ⟨y, hy, hloc⟩ => ⟨y, hsub y hy, hloc⟩

/-- The chain is that of the sequence, and so are the back pointers but for those of the nodes that
were inserted, which lead behind them. -/
structure Threaded (q : Queued N) : Prop where
  leads : Leads q.tailq.tqeNext q.tailq.tqhFirst q.nodes
  links : ∀ n ∈ q.nodes, ∃ xs ys, q.nodes = xs ++ n :: ys ∧
    if n ∈ q.inserted then Behind (q.tailq.tqePrev n) ys
    else q.tailq.tqePrev n = lastPlace Loc.next .first xs

lemma threaded_of_represents (h : tailq.Represents ns) : Threaded ⟨tailq, ns, []⟩ := by
  refine ⟨h.leads, fun n hn => ?_⟩
  obtain ⟨xs, ys, hsplit⟩ := List.append_of_mem hn
  have heq : ns = xs ++ n :: ys := hsplit
  refine ⟨xs, ys, heq, ?_⟩
  rw [if_neg List.not_mem_nil]
  have hback := h.back
  rw [heq] at hback
  exact (backLinked_append_cons.1 hback).2.1

/-! ## One insertion -/

/-- What the macro does with a back pointer that leads to a place of a pointer. -/
lemma insert_spec (layout : Layout N) (hne : listelm ≠ elm) (hprev : tailq.tqePrev listelm = loc)
    (hloc : loc = .first ∨ ∃ n, loc = .next n) :
    ∃ tailq', tailqInsertBefore layout listelm elm tailq = pure tailq' ∧
      tailq'.value =
        Function.update (Function.update tailq.value (.next elm) (some listelm)) loc (some elm) ∧
      tailq'.tqePrev = Function.update (Function.update tailq.tqePrev elm
        (layout.asLoc (tailq.tqeNext listelm))) listelm (.next elm) := by
  obtain ⟨tailq', hwrite, hvalue, hprev', -⟩ := exists_write
    ((tailq.setPrev elm (layout.asLoc (tailq.tqeNext listelm))).setNext elm (some listelm))
    (some elm) hloc
  refine ⟨tailq'.setPrev listelm (.next elm), ?_, ?_, ?_⟩
  · rw [tailqInsertBefore, setNext_tqePrev, setPrev_tqePrev, Function.update_of_ne hne, hprev,
      hwrite]
    rfl
  · rw [setPrev_value, hvalue, setNext_value, setPrev_value]
  · rw [setPrev_tqePrev, hprev', setNext_tqePrev, setPrev_tqePrev]

/-- What it does with one that does not. -/
lemma insert_badAccess (layout : Layout N) (hne : listelm ≠ elm) {a : ℕ}
    (hprev : tailq.tqePrev listelm = .other a) :
    tailqInsertBefore layout listelm elm tailq = throw .badAccess := by
  rw [tailqInsertBefore, setNext_tqePrev, setPrev_tqePrev, Function.update_of_ne hne, hprev]
  rfl

/-- The chain after the macro has redirected the pointer to `listelm`. -/
lemma leads_of_value (h : Leads tailq.tqeNext tailq.tqhFirst (xs ++ listelm :: ys))
    (he : elm ∉ xs ++ listelm :: ys)
    (hvalue : tailq'.value = Function.update
      (Function.update tailq.value (.next elm) (some listelm)) (lastPlace Loc.next .first xs)
      (some elm)) :
    Leads tailq'.tqeNext tailq'.tqhFirst (xs ++ elm :: listelm :: ys) := by
  have hplace : Loc.next elm ≠ lastPlace Loc.next .first xs := by
    intro heq
    rcases lastPlace_eq_or Loc.next .first xs with hfirst | ⟨n, hn, hnext⟩
    · cases heq.trans hfirst
    · exact he (List.mem_append_left _ (Loc.next.inj (heq.trans hnext) ▸ hn))
  have hfirst : ∀ n : N, Loc.next n ≠ Loc.first := by
    intro n heq
    cases heq
  have hleads : Leads (fun n => tailq.value (.next n)) (tailq.value .first)
      (xs ++ listelm :: ys) := h
  refine Leads.insert tailq.value tailq'.value (fun _ _ => Loc.next.inj) (hfirst elm)
    (fun n _ => hfirst n) hleads he ?_ ?_ fun l hl hle => ?_
  · rw [hvalue, Function.update_self]
  · rw [hvalue, Function.update_of_ne hplace, Function.update_self]
  · rw [hvalue, Function.update_of_ne hl, Function.update_of_ne hle]

omit [DecidableEq N] in
/-- The new node's back pointer is the next pointer of `listelm`, read as a place. -/
lemma behind_asLoc (h : Leads tailq.tqeNext tailq.tqhFirst (xs ++ listelm :: ys)) :
    Behind (layout.asLoc (tailq.tqeNext listelm)) (listelm :: ys) := by
  have hys : Leads tailq.tqeNext (tailq.tqeNext listelm) ys := h.of_append
  cases ys with
  | nil =>
    rw [leads_nil.1 hys]
    exact Or.inl ⟨_, rfl⟩
  | cons y ys =>
    rw [hys.1, Layout.asLoc]
    split
    · exact Or.inr ⟨y, by simp, rfl⟩
    · exact Or.inl ⟨_, rfl⟩

variable (layout) in
/-- **Before a node of the first kind**: the chain is right, and the new node is of the second
kind. -/
lemma Threaded.insert (h : Threaded q) (hl : Insertable q l) (hkind : l.1 ∉ q.inserted) :
    ∃ r, queueStep layout l q = some r ∧ Threaded r.1 := by
  obtain ⟨listelm, elm⟩ := l
  obtain ⟨hmem, hfresh⟩ := hl
  obtain ⟨xs, ys, hsplit, hlink⟩ := h.links listelm hmem
  rw [if_neg hkind] at hlink
  have hleads := h.leads
  have hnodup := hleads.nodup
  rw [hsplit] at hleads hnodup hfresh
  have hne : listelm ≠ elm := fun heq => hfresh (heq ▸ by simp)
  obtain ⟨tailq', hrun, hvalue, hprev⟩ := insert_spec layout hne hlink (lastPlace_first xs)
  have hnew : insertBefore listelm elm q.nodes = xs ++ elm :: listelm :: ys := by
    rw [hsplit]
    refine insertBefore_append fun hin => ?_
    exact (List.nodup_append.1 hnodup).2.2 listelm hin listelm List.mem_cons_self rfl
  refine ⟨_, by rw [queueStep, hrun]; rfl, ?_, fun n hn => ?_⟩
  · show Leads tailq'.tqeNext tailq'.tqhFirst _
    rw [hnew]
    exact leads_of_value hleads hfresh hvalue
  · have hn : n ∈ insertBefore listelm elm q.nodes := hn
    rw [hnew] at hn
    show ∃ xs ys, insertBefore listelm elm q.nodes = xs ++ n :: ys ∧
      if n ∈ elm :: q.inserted then Behind (tailq'.tqePrev n) ys
      else tailq'.tqePrev n = lastPlace Loc.next .first xs
    rw [hnew, hprev]
    rcases eq_or_ne n listelm with rfl | hnl
    · refine ⟨xs ++ [elm], ys, by simp, ?_⟩
      rw [if_neg (by simp [hne, hkind]), Function.update_self, lastPlace_append_cons, lastPlace_nil]
    rw [Function.update_of_ne hnl]
    rcases eq_or_ne n elm with rfl | hne'
    · refine ⟨xs, listelm :: ys, rfl, ?_⟩
      rw [if_pos List.mem_cons_self, Function.update_self]
      exact behind_asLoc hleads
    rw [Function.update_of_ne hne']
    -- the node is an old one, and its neighbours towards the front are the same
    have hold : n ∈ q.nodes := by
      rw [hsplit]
      simpa [hne'] using hn
    obtain ⟨xs', ys', hsplit', hlink'⟩ := h.links n hold
    have hmem : (n ∈ elm :: q.inserted) = (n ∈ q.inserted) := by simp [hne']
    simp only [hmem]
    rcases append_cons_eq_cases (hsplit'.symm.trans hsplit) hnl with
      ⟨zs, rfl, rfl⟩ | ⟨zs, rfl, rfl⟩
    · refine ⟨xs ++ elm :: listelm :: zs, ys', by simp, ?_⟩
      rw [lastPlace_append_cons] at hlink'
      rw [lastPlace_append_cons, lastPlace_cons]
      exact hlink'
    · refine ⟨xs', zs ++ elm :: listelm :: ys, by simp, ?_⟩
      split at hlink'
      · rename_i hin
        rw [if_pos hin]
        refine hlink'.mono fun y hy => ?_
        rcases List.mem_append.1 hy with hy | hy
        · exact List.mem_append_left _ hy
        · exact List.mem_append_right _ (List.mem_cons_of_mem elm hy)
      · rename_i hin
        rw [if_neg hin]
        exact hlink'

/-- The chain does not end any more when a node leads back to one that leads to it. -/
lemma not_leads_of_back (h : Leads tailq.tqeNext tailq.tqhFirst (xs ++ listelm :: (ys ++ y :: ms)))
    (he : elm ∉ xs ++ listelm :: (ys ++ y :: ms))
    (hvalue : tailq'.value = Function.update
      (Function.update tailq.value (.next elm) (some listelm)) (.next y) (some elm)) :
    ¬ Leads tailq'.tqeNext tailq'.tqhFirst ns := by
  intro hns
  have hnodup : ((xs ++ listelm :: ys) ++ y :: ms).Nodup := by
    rw [List.append_assoc]
    exact h.nodup
  have hye : y ≠ elm := fun heq => he (heq ▸ by simp)
  have hkeep : ∀ n ≠ elm, n ≠ y → tailq'.tqeNext n = tailq.tqeNext n := by
    intro n hne hny
    have hn := congrFun hvalue (.next n)
    rwa [Function.update_of_ne fun heq => hny (Loc.next.inj heq),
      Function.update_of_ne fun heq => hne (Loc.next.inj heq)] at hn
  have hfirst : tailq'.tqhFirst = tailq.tqhFirst := by
    have hf := congrFun hvalue .first
    rwa [Function.update_of_ne (by simp), Function.update_of_ne (by simp)] at hf
  have hback : tailq'.tqeNext y = some elm ∧ tailq'.tqeNext elm = some listelm := by
    constructor
    · exact (congrFun hvalue (.next y)).trans (Function.update_self ..)
    · refine (congrFun hvalue (.next elm)).trans ?_
      rw [Function.update_of_ne fun heq => hye (Loc.next.inj heq).symm, Function.update_self]
  -- the walk comes to `listelm`, and to `y` and from there to `listelm` again
  have hfront : ∀ n ∈ xs ++ listelm :: ys, tailq'.tqeNext n = tailq.tqeNext n := by
    intro n hn
    refine hkeep n (fun heq => he ?_) fun heq => ?_
    · rw [← heq]
      simp only [List.mem_append, List.mem_cons] at hn ⊢
      tauto
    · exact (List.nodup_append.1 hnodup).2.2 n hn y List.mem_cons_self heq
  have hfirstVisit : along tailq'.tqeNext xs.length tailq'.tqhFirst = some listelm := by
    rw [hfirst]
    exact h.along_congr fun n hn => hfront n (List.mem_append_left _ hn)
  have hsecond : along tailq'.tqeNext ((xs ++ listelm :: ys).length + 2) tailq'.tqhFirst =
      some listelm := by
    rw [← List.cons_append, ← List.append_assoc] at h
    rw [along_succ, along_succ, hfirst, h.along_congr hfront, Option.bind_some, hback.1,
      Option.bind_some, hback.2]
  refine hns.along_ne ?_ hsecond hfirstVisit
  rw [List.length_append]
  omega

/-- **Before a node of the second kind**: the insertion is undefined, or the chain does not end. -/
lemma Threaded.endless (h : Threaded q) (hl : Insertable q l) (hkind : l.1 ∈ q.inserted) :
    Endless layout q l := by
  obtain ⟨listelm, elm⟩ := l
  obtain ⟨hmem, hfresh⟩ := hl
  obtain ⟨xs, ys, hsplit, hlink⟩ := h.links listelm hmem
  rw [if_pos hkind] at hlink
  have hleads := h.leads
  rw [hsplit] at hleads hfresh
  have hne : listelm ≠ elm := fun heq => hfresh (heq ▸ by simp)
  intro r hr ns hvisits
  rcases hlink with ⟨a, ha⟩ | ⟨y, hy, hloc⟩
  · rw [queueStep, insert_badAccess layout hne ha] at hr
    cases hr
  · obtain ⟨ys, ms, rfl⟩ := List.append_of_mem hy
    obtain ⟨tailq', hrun, hvalue, -⟩ := insert_spec layout hne hloc (Or.inr ⟨y, rfl⟩)
    rw [queueStep, hrun] at hr
    obtain rfl := Option.some.inj hr
    exact not_leads_of_back hleads hfresh hvalue (visits_iff_leads.1 hvisits)

/-! ## Runs -/

/-- **One insertion.** -/
lemma Threaded.step_iff (h : Threaded q) (hl : Insertable q l) :
    (∃ r, queueStep layout l q = some r ∧ r.1.tailq.Visits r.1.nodes) ↔ l.1 ∉ q.inserted := by
  constructor
  · rintro ⟨r, hr, hvisits⟩ hkind
    exact h.endless hl hkind r hr _ hvisits
  · intro hkind
    obtain ⟨r, hr, h'⟩ := h.insert layout hl hkind
    exact ⟨r, hr, visits_iff_leads.2 h'.leads⟩

/-- The nodes that are inserted do not get one before them. -/
lemma Threaded.allowed_iff_pairwise {ls : List (N × N)} (h : Threaded q)
    (hls : Allowed (queueStep layout) Insertable ls q) :
    Allowed (queueStep layout) (fun q l => l.1 ∉ q.inserted) ls q ↔
      (∀ l ∈ ls, l.1 ∉ q.inserted) ∧ ls.Pairwise fun l l' => l'.1 ≠ l.2 := by
  induction ls generalizing q with
  | nil => simp
  | cons l ls ih =>
    rw [allowed_cons, List.forall_mem_cons, List.pairwise_cons]
    by_cases hkind : l.1 ∈ q.inserted
    · exact iff_of_false (fun h => h.1 hkind) fun h => h.1.1 hkind
    obtain ⟨r, hr, h'⟩ := h.insert layout hls.1 hkind
    have hinserted : r.1.inserted = l.2 :: q.inserted := by
      obtain ⟨tailq', -, rfl⟩ := Option.map_eq_some_iff.1 hr
      rfl
    have hrest := ih h' (hls.2 r hr)
    simp only [hinserted, List.mem_cons, not_or] at hrest
    constructor
    · rintro ⟨-, hall⟩
      obtain ⟨hforall, hpairwise⟩ := hrest.1 (hall r hr)
      exact ⟨⟨hkind, fun l' hl' => (hforall l' hl').2⟩, fun l' hl' => (hforall l' hl').1, hpairwise⟩
    · rintro ⟨⟨-, hforall⟩, hne, hpairwise⟩
      refine ⟨hkind, fun r' hr' => ?_⟩
      obtain rfl := Option.some.inj (hr.symm.trans hr')
      exact hrest.2 ⟨fun l' hl' => ⟨hne l' hl', hforall l' hl'⟩, hpairwise⟩

/-- The run up to an insertion. -/
lemma Threaded.run {pre post : List (N × N)} (h : Threaded q)
    (hls : Allowed (queueStep layout) Insertable (pre ++ post) q)
    (hpre : Allowed (queueStep layout) (fun q l => l.1 ∉ q.inserted) pre q) :
    ∃ r, exec (queueStep layout) pre q = some r ∧ Threaded r.1 ∧
      Allowed (queueStep layout) Insertable post r.1 ∧
      r.1.inserted = (pre.map Prod.snd).reverse ++ q.inserted := by
  induction pre generalizing q with
  | nil => exact ⟨(q, []), rfl, h, hls, rfl⟩
  | cons l pre ih =>
    obtain ⟨r, hr, h'⟩ := h.insert layout hls.1 hpre.1
    have hinserted : r.1.inserted = l.2 :: q.inserted := by
      obtain ⟨tailq', -, rfl⟩ := Option.map_eq_some_iff.1 hr
      rfl
    obtain ⟨r', hr', h'', hpost, heq⟩ := ih h' (hls.2 r hr) (hpre.2 r hr)
    refine ⟨_, exec_cons_eq_some.2 ⟨r, r', hr, hr', rfl⟩, h'', hpost, heq.trans ?_⟩
    rw [hinserted, List.map_cons, List.reverse_cons, List.append_assoc, List.singleton_append]

/-- **How long `TAILQ_FOREACH` goes through the right nodes.**  From a well-formed queue on, new
nodes are inserted before nodes of the queue.  After each insertion `TAILQ_FOREACH` comes to an end
and has gone through the nodes in their order, if and only if no node is inserted before one that
was itself inserted.  The first insertion before such a node is undefined, or makes the loop
endless. -/
theorem foreach_right_iff (layout : Layout N) (tailq : TailQueue N) (ns : List N)
    (h : tailq.Represents ns) (ls : List (N × N))
    (hls : Allowed (queueStep layout) Insertable ls ⟨tailq, ns, []⟩) :
    (Throughout (queueStep layout) (fun _ _ r => r.1.tailq.Visits r.1.nodes) ls
        ⟨tailq, ns, []⟩ ↔ ls.Pairwise fun l l' => l'.1 ≠ l.2) ∧
      ∀ pre l post, ls = pre ++ l :: post → (pre.Pairwise fun l l' => l'.1 ≠ l.2) →
        (∃ l' ∈ pre, l.1 = l'.2) →
          ∃ q, exec (queueStep layout) pre ⟨tailq, ns, []⟩ = some q ∧ Endless layout q.1 l := by
  have hthreaded := threaded_of_represents h
  refine ⟨?_, fun pre l post heq hpre hl => ?_⟩
  swap
  · obtain ⟨l', hl', hbefore⟩ := hl
    subst heq
    have hkinds := (hthreaded.allowed_iff_pairwise (hls.of_prefix)).2
      ⟨fun _ _ => List.not_mem_nil, hpre⟩
    obtain ⟨q, hq, hq', hpost, hinserted⟩ := hthreaded.run hls hkinds
    refine ⟨q, hq, hq'.endless hpost.1 ?_⟩
    rw [hinserted, List.append_nil, List.mem_reverse, hbefore]
    exact List.mem_map_of_mem hl'
  refine (throughout_iff_allowed Threaded (C := fun q l => l.1 ∉ q.inserted)
    (fun q l hq hl => hq.step_iff hl) (fun q l r hq hl hkind hr => ?_) hthreaded hls).trans
    ((hthreaded.allowed_iff_pairwise hls).trans ?_)
  · obtain ⟨r', hr', h'⟩ := hq.insert layout hl hkind
    obtain rfl := Option.some.inj (hr'.symm.trans hr)
    exact h'
  · exact and_iff_right fun l _ => List.not_mem_nil

/-- Node 1 is inserted before the only one, and node 2 before that. -/
theorem foreach_right_iff_one :
    Throughout (queueStep ⟨true, fun _ => 0⟩) (fun _ _ r => r.1.tailq.Visits r.1.nodes) [(0, 1)]
        ⟨⟨some (0 : Fin 3), .next 0, fun _ => none, fun _ => .first⟩, [0], []⟩ ∧
      ∃ q, exec (queueStep ⟨true, fun _ => 0⟩) [(0, 1)]
          ⟨⟨some (0 : Fin 3), .next 0, fun _ => none, fun _ => .first⟩, [0], []⟩ = some q ∧
        Endless ⟨true, fun _ => 0⟩ q.1 (1, 2) := by
  have hone : TailQueue.Represents ⟨some (0 : Fin 3), .next 0, fun _ => none, fun _ => .first⟩
      [0] := ⟨⟨rfl, leads_nil.2 rfl⟩, ⟨rfl, trivial⟩, rfl⟩
  constructor
  · exact (foreach_right_iff ⟨true, fun _ => 0⟩ _ [0] hone [(0, 1)] (by decide)).1.2
      (List.pairwise_singleton _ _)
  · exact (foreach_right_iff ⟨true, fun _ => 0⟩ _ [0] hone [(0, 1), (1, 2)] (by decide)).2
      [(0, 1)] (1, 2) [] rfl (List.pairwise_singleton _ _) ⟨(0, 1), by simp, rfl⟩

end LibeventLearn.Event2
