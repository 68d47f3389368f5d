import Mathlib.Data.Finite.Sum
import Mathlib.Data.Fintype.Option
import Mathlib.Data.Fintype.Pigeonhole
import Mathlib.Data.List.Nodup
import Mathlib.Data.Nat.Init
import Mathlib.Tactic.Ring

/-!
# Chains of pointers

Nodes with a pointer to a next node, or to none.  A chain that starts at a pointer either comes to
an end, and is then the list of the nodes on it, which are all different; or it runs into a cycle.
In a finite memory two walkers, one twice as fast as the other, meet on every chain that does not
end.  The second half is about doubly linked chains: every node keeps the place of the pointer
through which the chain reaches it.
-/

namespace LibeventLearn.Lib

variable {N : Type*} {next next' : N → Option N} {p : Option N} {ns ms : List N} {n : N}

/-- Where a pointer leads in `k` steps. -/
def along (next : N → Option N) : ℕ → Option N → Option N
  | 0, p => p
  | k + 1, p => along next k (p.bind next)

@[simp] lemma along_zero : along next 0 p = p := rfl

lemma along_one : along next 1 p = p.bind next := rfl

lemma along_add (j k : ℕ) : along next (j + k) p = along next k (along next j p) := by
  induction j generalizing p with
  | zero => rw [Nat.zero_add, along_zero]
  | succ j ih => rw [Nat.succ_add, along, ih, along]

lemma along_succ (k : ℕ) : along next (k + 1) p = (along next k p).bind next := by
  rw [along_add, along_one]

@[simp] lemma along_none (k : ℕ) : along next k none = none := by
  induction k with
  | zero => rfl
  | succ k ih => rw [along, Option.bind_none, ih]

/-- The chain from a pointer comes to an end. -/
def Ends (next : N → Option N) (p : Option N) : Prop := ∃ k, along next k p = none

/-- The nodes on the chain from a pointer to its end. -/
def Leads (next : N → Option N) : Option N → List N → Prop
  | p, [] => p = none
  | p, n :: ns => p = some n ∧ Leads next (next n) ns

@[simp] lemma leads_nil : Leads next p [] ↔ p = none := Iff.rfl

@[simp] lemma leads_cons : Leads next p (n :: ns) ↔ p = some n ∧ Leads next (next n) ns := Iff.rfl

lemma Leads.along_eq (h : Leads next p ns) (k : ℕ) : along next k p = ns[k]? := by
  induction ns generalizing p k with
  | nil => rw [leads_nil.1 h, along_none, List.getElem?_nil]
  | cons n ns ih =>
    obtain ⟨rfl, h⟩ := h
    cases k with
    | zero => rw [along_zero, List.getElem?_cons_zero]
    | succ k => rw [along, Option.bind_some, ih h, List.getElem?_cons_succ]

lemma Leads.ends (h : Leads next p ns) : Ends next p :=
  ⟨ns.length, by rw [h.along_eq, List.getElem?_eq_none le_rfl]⟩

lemma Ends.exists_leads (h : Ends next p) : ∃ ns, Leads next p ns := by
  obtain ⟨k, hk⟩ := h
  induction k generalizing p with
  | zero => exact ⟨[], hk⟩
  | succ k ih =>
    cases p with
    | none => exact ⟨[], rfl⟩
    | some n =>
      obtain ⟨ns, hns⟩ := ih hk
      exact ⟨n :: ns, rfl, hns⟩

/-- The chain from a node on it. -/
lemma Leads.of_append (h : Leads next p (ms ++ n :: ns)) : Leads next (next n) ns := by
  induction ms generalizing p with
  | nil => exact h.2
  | cons m ms ih => exact ih h.2

/-- The chain from a pointer is one list. -/
lemma Leads.unique (h : Leads next p ns) (h' : Leads next p ms) : ns = ms :=
  List.ext_getElem? fun k => by rw [← h.along_eq, h'.along_eq]

/-- **A chain that ends visits no node twice.** -/
theorem Leads.nodup (h : Leads next p ns) : ns.Nodup := by
  rw [List.nodup_iff_getElem?_ne_getElem?]
  intro i j hij hj heq
  rw [← h.along_eq, ← h.along_eq] at heq
  -- from two visits to one node on, the walks to the end of the list are the same
  have hend : along next (i + (ns.length - j)) p = along next (j + (ns.length - j)) p := by
    rw [along_add, along_add, heq]
  rw [h.along_eq, h.along_eq, List.getElem?_eq_none (by omega : ns.length ≤ j + (ns.length - j)),
    List.getElem?_eq_none_iff] at hend
  omega

/-- On a chain that ends no node is reached in two numbers of steps. -/
lemma Leads.along_ne (h : Leads next p ns) {i j : ℕ} (hij : i < j) (hn : along next j p = some n) :
    along next i p ≠ some n := by
  intro hi
  rw [h.along_eq] at hi hn
  obtain ⟨hj, -⟩ := List.getElem?_eq_some_iff.1 hn
  exact List.nodup_iff_getElem?_ne_getElem?.1 h.nodup i j hij hj (hi.trans hn.symm)

/-- A chain that comes back to where it was at step `i` repeats from there on. -/
lemma along_add_mul {i d k : ℕ} (h : along next (i + d) p = along next i p) (hk : i ≤ k) (t : ℕ) :
    along next (k + d * t) p = along next k p := by
  obtain ⟨j, rfl⟩ := Nat.exists_eq_add_of_le hk
  induction t with
  | zero => rw [Nat.mul_zero, Nat.add_zero]
  | succ t ih =>
    have hsplit : i + j + d * (t + 1) = i + d + (j + d * t) := by ring
    calc along next (i + j + d * (t + 1)) p
        = along next (j + d * t) (along next (i + d) p) := by rw [hsplit, along_add]
      _ = along next (i + j + d * t) p := by rw [h, ← along_add, Nat.add_assoc]
      _ = along next (i + j) p := ih

/-- **Two walkers, one twice as fast as the other, meet.** -/
theorem exists_meet [Finite N] (next : N → Option N) (p : Option N) :
    ∃ m, 0 < m ∧ along next (2 * m) p = along next m p := by
  have key : ∀ i j, i < j → along next i p = along next j p →
      ∃ m, 0 < m ∧ along next (2 * m) p = along next m p := by
    intro i j hij heq
    obtain ⟨d, rfl⟩ := Nat.exists_eq_add_of_lt hij
    -- a multiple of the length of the cycle that is past the tail
    refine ⟨(d + 1) * (i + 1), Nat.mul_pos d.succ_pos i.succ_pos, ?_⟩
    have htail : i ≤ (d + 1) * (i + 1) :=
      i.le_succ.trans (Nat.le_mul_of_pos_left _ d.succ_pos)
    rw [Nat.two_mul]
    exact along_add_mul heq.symm htail (i + 1)
  obtain ⟨i, j, hne, heq⟩ := Finite.exists_ne_map_eq_of_infinite fun k => along next k p
  rcases lt_or_gt_of_ne hne with h | h
  · exact key i j h heq
  · exact key j i h heq.symm

/-! ## Doubly linked chains -/

section Places

variable {A : Type*} {place : N → A} {prev prev' : N → A} {value value' : A → Option N} {a : A}
  {e x : N} {xs ys : List N}

/-- The place of the last pointer of a chain: in its last node, or where the chain starts. -/
def lastPlace (place : N → A) : A → List N → A
  | a, [] => a
  | _, n :: ns => lastPlace place (place n) ns

/-- Every node on the chain keeps the place of the pointer that leads to it. -/
def BackLinked (place prev : N → A) : A → List N → Prop
  | _, [] => True
  | a, n :: ns => prev n = a ∧ BackLinked place prev (place n) ns

instance BackLinked.decidable [DecidableEq A] (place prev : N → A) :
    ∀ (a : A) (ns : List N), Decidable (BackLinked place prev a ns)
  | _, [] => .isTrue trivial
  | a, n :: ns =>
    have := BackLinked.decidable place prev (place n) ns
    inferInstanceAs (Decidable (prev n = a ∧ _))

@[simp] lemma lastPlace_nil : lastPlace place a [] = a := rfl

@[simp] lemma lastPlace_cons : lastPlace place a (n :: ns) = lastPlace place (place n) ns := rfl

@[simp] lemma backLinked_nil : BackLinked place prev a [] := trivial

@[simp] lemma backLinked_cons :
    BackLinked place prev a (n :: ns) ↔ prev n = a ∧ BackLinked place prev (place n) ns := Iff.rfl

lemma lastPlace_eq_or (place : N → A) (a : A) (ns : List N) :
    lastPlace place a ns = a ∨ ∃ n ∈ ns, lastPlace place a ns = place n := by
  induction ns generalizing a with
  | nil => exact Or.inl rfl
  | cons n ns ih =>
    rcases ih (place n) with h | ⟨m, hm, h⟩
    · exact Or.inr ⟨n, List.mem_cons_self, h⟩
    · exact Or.inr ⟨m, List.mem_cons_of_mem n hm, h⟩

lemma lastPlace_append_cons : lastPlace place a (xs ++ n :: ys) = lastPlace place (place n) ys := by
  induction xs generalizing a with
  | nil => rfl
  | cons x xs ih => exact ih

lemma backLinked_append_cons :
    BackLinked place prev a (xs ++ n :: ys) ↔
      BackLinked place prev a xs ∧ prev n = lastPlace place a xs ∧
        BackLinked place prev (place n) ys := by
  induction xs generalizing a with
  | nil => simp
  | cons x xs ih => rw [List.cons_append, backLinked_cons, backLinked_cons, ih, and_assoc]; rfl

lemma BackLinked.congr (h : BackLinked place prev a ns) (heq : ∀ n ∈ ns, prev' n = prev n) :
    BackLinked place prev' a ns := by
  induction ns generalizing a with
  | nil => trivial
  | cons n ns ih =>
    rw [List.forall_mem_cons] at heq
    exact ⟨heq.1.trans h.1, ih h.2 heq.2⟩

lemma Leads.congr (h : Leads next p ns) (heq : ∀ n ∈ ns, next' n = next n) :
    Leads next' p ns := by
  induction ns generalizing p with
  | nil => exact h
  | cons n ns ih =>
    rw [List.forall_mem_cons] at heq
    obtain ⟨hp, hns⟩ := h
    exact ⟨hp, heq.1 ▸ ih hns heq.2⟩

/-- The front of a chain is walked along where its pointers are kept. -/
lemma Leads.along_congr (h : Leads next p (ms ++ n :: ns)) (heq : ∀ m ∈ ms, next' m = next m) :
    along next' ms.length p = some n := by
  induction ms generalizing p with
  | nil => exact h.1
  | cons m ms ih =>
    rw [List.forall_mem_cons] at heq
    obtain ⟨rfl, h⟩ := h
    rw [List.length_cons, along, Option.bind_some, heq.1]
    exact ih h heq.2

/-- **A node is inserted by redirecting the pointer that leads to the next one.** -/
theorem Leads.insert (value value' : A → Option N) (hinj : Function.Injective place)
    (hea : place e ≠ a) (ha : ∀ n ∈ xs ++ x :: ys, place n ≠ a)
    (h : Leads (fun n => value (place n)) (value a) (xs ++ x :: ys))
    (he : e ∉ xs ++ x :: ys) (hat : value' (lastPlace place a xs) = some e)
    (hnext : value' (place e) = some x)
    (hframe : ∀ l, l ≠ lastPlace place a xs → l ≠ place e → value' l = value l) :
    Leads (fun n => value' (place n)) (value' a) (xs ++ e :: x :: ys) := by
  induction xs generalizing a with
  | nil =>
    have hkeep : ∀ n ∈ x :: ys, value' (place n) = value (place n) := fun n hn =>
      hframe _ (ha n hn) fun heq => he (hinj heq ▸ hn)
    rw [List.forall_mem_cons] at hkeep
    obtain ⟨-, hys⟩ := h
    refine ⟨hat, hnext, ?_⟩
    show Leads _ (value' (place x)) ys
    rw [hkeep.1]
    exact hys.congr hkeep.2
  | cons n xs ih =>
    obtain ⟨hn, hrest⟩ := h
    have hnodup : (n :: (xs ++ x :: ys)).Nodup := Leads.nodup (p := some n) ⟨rfl, hrest⟩
    rw [List.cons_append, List.mem_cons, not_or] at he
    rw [List.cons_append, List.forall_mem_cons] at ha
    rw [List.nodup_cons] at hnodup
    -- the place the chain starts at keeps its pointer
    have hkeep : value' a = value a := by
      refine hframe a (fun heq => ?_) hea.symm
      rcases lastPlace_eq_or place (place n) xs with h | ⟨m, hm, h⟩
      · exact ha.1 (heq.trans h).symm
      · exact ha.2 m (List.mem_append_left _ hm) (heq.trans h).symm
    refine ⟨hkeep.trans hn, ?_⟩
    exact ih (fun heq => he.1 (hinj heq)) (fun m hm heq => hnodup.1 (hinj heq ▸ hm)) hrest he.2
      hat hframe

/-- The back pointers of a chain with a node inserted. -/
lemma BackLinked.insert (h : BackLinked place prev a (xs ++ x :: ys))
    (hnodup : (xs ++ x :: ys).Nodup) (he : e ∉ xs ++ x :: ys)
    (hate : prev' e = lastPlace place a xs) (hatx : prev' x = place e)
    (hframe : ∀ n, n ≠ e → n ≠ x → prev' n = prev n) :
    BackLinked place prev' a (xs ++ e :: x :: ys) := by
  rw [backLinked_append_cons] at h ⊢
  obtain ⟨hxs, -, hys⟩ := h
  have hne : ∀ n ∈ xs ++ x :: ys, n ≠ e := fun n hn heq => he (heq ▸ hn)
  rw [List.nodup_append, List.nodup_cons] at hnodup
  obtain ⟨-, ⟨hxys, -⟩, hdisj⟩ := hnodup
  refine ⟨hxs.congr fun n hn => ?_, hate, hatx, hys.congr fun n hn => ?_⟩
  · exact hframe n (hne n (List.mem_append_left _ hn)) (hdisj n hn x List.mem_cons_self)
  · have hmem : n ∈ xs ++ x :: ys := List.mem_append_right xs (List.mem_cons_of_mem x hn)
    exact hframe n (hne n hmem) fun heq => hxys (heq ▸ hn)

end Places

end LibeventLearn.Lib
