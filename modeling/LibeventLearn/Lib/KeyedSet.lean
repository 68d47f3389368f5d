import Mathlib.Data.Finset.Basic
import Mathlib.Data.Finset.Card
import Mathlib.Order.Defs.LinearOrder

/-!
# Finite sets with keys

What a priority queue is for: a finite set of elements, each with a key, from which an element
with a least key can be taken out.  Elements with equal keys are not told apart, so which of
them is taken is left open.  Taking elements out until none is left lists the set once, in the
order of the keys.
-/

namespace LibeventLearn.Lib

/-- A finite set of elements with a key for each of them. -/
structure KeyedSet (E K : Type*) where
  members : Finset E
  key : E → K

namespace KeyedSet

variable {E K : Type*} [DecidableEq E]

/-- The set with `e` put in under the key `k`. -/
def put (a : KeyedSet E K) (e : E) (k : K) : KeyedSet E K :=
  ⟨insert e a.members, Function.update a.key e k⟩

/-- The set without `e`. -/
def remove (a : KeyedSet E K) (e : E) : KeyedSet E K := { a with members := a.members.erase e }

/-- The set with the key of `e` changed to `k`. -/
def rekey (a : KeyedSet E K) (e : E) (k : K) : KeyedSet E K :=
  { a with key := Function.update a.key e k }

/-- A right answer to a question for a top element: none exactly if the set is empty, else a
member that no member is smaller than. -/
def IsTop [Preorder K] (a : KeyedSet E K) : Option E → Prop
  | none => a.members = ∅
  | some e => e ∈ a.members ∧ ∀ f ∈ a.members, ¬ a.key f < a.key e

/-- The set after `r` has been taken out. -/
def take (a : KeyedSet E K) : Option E → KeyedSet E K
  | none => a
  | some e => a.remove e

lemma mem_remove {a : KeyedSet E K} {e f : E} :
    f ∈ (a.remove e).members ↔ f ≠ e ∧ f ∈ a.members := Finset.mem_erase

/-! ## Draining -/

/-- Taking top elements out of the set until it is empty yields this list. -/
inductive Drains [Preorder K] : KeyedSet E K → List E → Prop
  | done {a : KeyedSet E K} (h : a.members = ∅) : Drains a []
  | take {a : KeyedSet E K} {e : E} {l : List E} (h : a.IsTop (some e))
      (hl : Drains (a.remove e) l) : Drains a (e :: l)

variable {a : KeyedSet E K} {l : List E}

/-- Draining yields the members and nothing else. -/
theorem Drains.mem_iff [Preorder K] (h : Drains a l) (f : E) : f ∈ l ↔ f ∈ a.members := by
  induction h with
  | done h => simp [h]
  | @take a e l h _ ih =>
    rw [List.mem_cons, ih, mem_remove]
    constructor
    · rintro (rfl | ⟨-, hf⟩)
      · exact h.1
      · exact hf
    · intro hf
      rcases eq_or_ne f e with rfl | hne
      · exact Or.inl rfl
      · exact Or.inr ⟨hne, hf⟩

/-- Draining yields no member twice. -/
theorem Drains.nodup [Preorder K] (h : Drains a l) : l.Nodup := by
  induction h with
  | done _ => exact List.nodup_nil
  | take _ hl ih =>
    refine List.nodup_cons.2 ⟨fun hmem => ?_, ih⟩
    exact (mem_remove.1 ((hl.mem_iff _).1 hmem)).1 rfl

/-- Draining yields the members in the order of their keys. -/
theorem Drains.sorted [LinearOrder K] (h : Drains a l) :
    (l.map a.key).Pairwise (· ≤ ·) := by
  induction h with
  | done _ => exact List.Pairwise.nil
  | @take a e l h hl ih =>
    refine List.pairwise_cons.2 ⟨fun k hk => ?_, ih⟩
    obtain ⟨f, hf, rfl⟩ := List.mem_map.1 hk
    have hmem : f ∈ a.members := (mem_remove.1 ((hl.mem_iff f).1 hf)).2
    exact not_lt.1 (h.2 f hmem)

end KeyedSet

end LibeventLearn.Lib
