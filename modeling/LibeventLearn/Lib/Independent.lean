import LibeventLearn.Lib.Run
import Mathlib.Data.List.Perm.Basic
import Mathlib.Data.Set.BooleanAlgebra
import Mathlib.Data.Set.Disjoint
import Mathlib.Order.CompletePartialOrder

/-!
# Independent steps

The state of a program is seen through a family of cells.  A step with a footprint reads and
writes only the cells of its footprint; steps with disjoint footprints are independent.  A run
of pairwise independent steps does to each cell what the one step that owns it does from the
start, and produces the outputs each step produces from the start, so its final state does not
depend on the order of the steps.
-/

namespace LibeventLearn.Lib

variable {S L O I : Type*} {V : I → Type*}

/-- A program whose steps, where they are enabled, are confined to a footprint of cells. -/
structure Confined (step : L → S → Option (S × List O)) (view : S → ∀ i, V i)
    (En : S → L → Prop) (foot : L → Set I) : Prop where
  /-- Enabled steps are defined. -/
  defined : ∀ {s l}, En s l → ∃ r, step l s = some r
  /-- Whether a step is enabled depends on its footprint only. -/
  enabled : ∀ {s s' l}, En s l → (∀ i ∈ foot l, view s i = view s' i) → En s' l
  /-- Cells outside of the footprint keep their contents. -/
  frame : ∀ {s l r}, En s l → step l s = some r → ∀ i ∉ foot l, view r.1 i = view s i
  /-- What happens in the footprint depends on the footprint only. -/
  inside : ∀ {s s' l r r'}, En s l → (∀ i ∈ foot l, view s i = view s' i) →
    step l s = some r → step l s' = some r' →
    (∀ i ∈ foot l, view r.1 i = view r'.1 i) ∧ r.2 = r'.2

/-- The outputs of a step from `s`. -/
def outputs (step : L → S → Option (S × List O)) (s : S) (l : L) : List O :=
  ((step l s).map Prod.snd).getD []

lemma outputs_of_eq {step : L → S → Option (S × List O)} {s : S} {l : L} {r : S × List O}
    (h : step l s = some r) : outputs step s l = r.2 := by
  simp [outputs, h]

/-- The cells after the steps `ls` from `s`, each owned by at most one of them, are `v`. -/
structure Merged (step : L → S → Option (S × List O)) (view : S → ∀ i, V i)
    (foot : L → Set I) (s : S) (ls : List L) (v : ∀ i, V i) : Prop where
  /-- A cell of a footprint holds what the step that owns it leaves there. -/
  owned : ∀ l ∈ ls, ∀ r, step l s = some r → ∀ i ∈ foot l, v i = view r.1 i
  /-- A cell of no footprint is untouched. -/
  untouched : ∀ i, (∀ l ∈ ls, i ∉ foot l) → v i = view s i

/-- The merged cells are determined by the set of the steps. -/
lemma Merged.unique {step : L → S → Option (S × List O)} {view : S → ∀ i, V i}
    {foot : L → Set I} {s : S} {ls ls' : List L} {v v' : ∀ i, V i}
    (hdef : ∀ l ∈ ls, ∃ r, step l s = some r) (hmem : ∀ l, l ∈ ls ↔ l ∈ ls')
    (h : Merged step view foot s ls v) (h' : Merged step view foot s ls' v') : v = v' := by
  funext i
  by_cases hi : ∃ l ∈ ls, i ∈ foot l
  · obtain ⟨l, hl, hil⟩ := hi
    obtain ⟨r, hr⟩ := hdef l hl
    rw [h.owned l hl r hr i hil, h'.owned l ((hmem l).1 hl) r hr i hil]
  · push Not at hi
    rw [h.untouched i hi, h'.untouched i fun l hl => hi l ((hmem l).2 hl)]

variable {step : L → S → Option (S × List O)} {view : S → ∀ i, V i} {En : S → L → Prop}
  {foot : L → Set I}

/-- **Runs of independent steps.**  The final cells are merged from the steps taken at the
start, and so are the outputs. -/
theorem Confined.exec_independent (hc : Confined step view En foot) :
    ∀ {ls : List L} {s : S}, ls.Pairwise (fun l l' => Disjoint (foot l) (foot l')) →
      (∀ l ∈ ls, En s l) →
      ∃ q, exec step ls s = some q ∧ Merged step view foot s ls (view q.1) ∧
        q.2 = ls.flatMap (outputs step s) := by
  intro ls
  induction ls with
  | nil =>
    intro s _ _
    exact ⟨(s, []), rfl, ⟨by simp, fun i _ => rfl⟩, by simp⟩
  | cons l ls ih =>
    intro s hpw hen
    obtain ⟨hdisj, hpw'⟩ := List.pairwise_cons.1 hpw
    have henl : En s l := hen l List.mem_cons_self
    obtain ⟨r, hr⟩ := hc.defined henl
    -- the remaining steps do not notice the first one
    have hagree : ∀ l' ∈ ls, ∀ i ∈ foot l', view s i = view r.1 i := fun l' hl' i hi =>
      (hc.frame henl hr i fun hil => Set.disjoint_left.1 (hdisj l' hl') hil hi).symm
    have hen' : ∀ l' ∈ ls, En r.1 l' := fun l' hl' =>
      hc.enabled (hen l' (List.mem_cons_of_mem _ hl')) (hagree l' hl')
    have hsame : ∀ l' ∈ ls, ∃ r₁ r₂, step l' s = some r₁ ∧ step l' r.1 = some r₂ ∧
        (∀ i ∈ foot l', view r₁.1 i = view r₂.1 i) ∧ r₁.2 = r₂.2 := by
      intro l' hl'
      have henl' := hen l' (List.mem_cons_of_mem _ hl')
      obtain ⟨r₁, hr₁⟩ := hc.defined henl'
      obtain ⟨r₂, hr₂⟩ := hc.defined (hen' l' hl')
      exact ⟨r₁, r₂, hr₁, hr₂, hc.inside henl' (hagree l' hl') hr₁ hr₂⟩
    obtain ⟨q, hq, hmerged, hout⟩ := ih hpw' hen'
    refine ⟨(q.1, r.2 ++ q.2), exec_cons_eq_some.2 ⟨r, q, hr, hq, rfl⟩, ⟨?_, ?_⟩, ?_⟩
    · intro l' hl' r' hr' i hi
      rcases List.mem_cons.1 hl' with rfl | hl'
      · obtain rfl : r = r' := Option.some.inj (hr.symm.trans hr')
        exact hmerged.untouched i fun l'' hl'' => Set.disjoint_left.1 (hdisj l'' hl'') hi
      · obtain ⟨r₁, r₂, hr₁, hr₂, hview, -⟩ := hsame l' hl'
        obtain rfl : r₁ = r' := Option.some.inj (hr₁.symm.trans hr')
        rw [hmerged.owned l' hl' r₂ hr₂ i hi, hview i hi]
    · intro i hi
      rw [List.forall_mem_cons] at hi
      rw [hmerged.untouched i hi.2, hc.frame henl hr i hi.1]
    · have htail : ls.flatMap (outputs step r.1) = ls.flatMap (outputs step s) := by
        refine List.flatMap_congr fun l' hl' => ?_
        obtain ⟨r₁, r₂, hr₁, hr₂, -, hrout⟩ := hsame l' hl'
        rw [outputs_of_eq hr₁, outputs_of_eq hr₂, hrout]
      show r.2 ++ q.2 = _
      rw [List.flatMap_cons, outputs_of_eq hr, hout, htail]

/-- **Order independence.**  Two orders of the same independent steps end in the same state,
if the cells determine the state, and produce the same outputs up to their order. -/
theorem Confined.exec_perm (hc : Confined step view En foot)
    (hview : Function.Injective view) {ls ls' : List L} {s : S} (hperm : ls.Perm ls')
    (hpw : ls.Pairwise (fun l l' => Disjoint (foot l) (foot l'))) (hen : ∀ l ∈ ls, En s l) :
    ∃ q q', exec step ls s = some q ∧ exec step ls' s = some q' ∧ q.1 = q'.1 ∧
      q.2 = ls.flatMap (outputs step s) ∧ q'.2 = ls'.flatMap (outputs step s) := by
  have hpw' : ls'.Pairwise (fun l l' => Disjoint (foot l) (foot l')) :=
    hperm.pairwise hpw fun h => h.symm
  have hen' : ∀ l ∈ ls', En s l := fun l hl => hen l (hperm.mem_iff.2 hl)
  obtain ⟨q, hq, hm, ho⟩ := hc.exec_independent hpw hen
  obtain ⟨q', hq', hm', ho'⟩ := hc.exec_independent hpw' hen'
  refine ⟨q, q', hq, hq', hview ?_, ho, ho'⟩
  exact hm.unique (fun l hl => hc.defined (hen l hl)) (fun l => hperm.mem_iff) hm'

/-- Outputs of which at most one is nonempty may be produced in any order. -/
theorem flatMap_eq_of_perm {f : L → List O} {ls ls' : List L} (hperm : ls.Perm ls')
    (h : ls.Pairwise fun l l' => f l = [] ∨ f l' = []) : ls.flatMap f = ls'.flatMap f := by
  induction hperm with
  | nil => rfl
  | cons l _ ih =>
    rw [List.flatMap_cons, List.flatMap_cons, ih (List.pairwise_cons.1 h).2]
  | swap l l' ls =>
    simp only [List.flatMap_cons]
    rcases (List.pairwise_cons.1 h).1 l List.mem_cons_self with hnil | hnil <;> simp [hnil]
  | trans hperm₁ _ ih₁ ih₂ =>
    exact (ih₁ h).trans (ih₂ (hperm₁.pairwise h fun hor => hor.symm))

end LibeventLearn.Lib
