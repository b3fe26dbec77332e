import Propositional.Log
import Propositional.Proofs.DecisionTree.Meaning
import Propositional.Proofs.UnitPropagation.Soundness

/-!
# Normal forms preserve meaning and collapse exactly when the formula is constant

Both normal forms and their minimal forms have the value of the formula under
every assignment that covers it. They are truth values exactly for the formulas
with one value everywhere. So propagation never collapses the clauses of a
normal form, which would make the formula constant after all, and the log of a
minimal form reports no collapse.
-/

set_option autoImplicit false

namespace Propositional

/-- A run that reports a collapse results in the fallback value. -/
theorem UnitPropagation.Run.result_of_collapsed_mem_events {run : Run} {fallback b : Bool}
    {first round : Nat} {reason : Collapse}
    (h : Event.collapsed round reason b ∈ run.events fallback first) :
    run.result fallback = .const fallback := by
  induction run generalizing first with
  | collapsed reason => rfl
  | settled before after => simp [events] at h
  | absorbed before after rest ih =>
    rw [events, List.mem_cons] at h
    rcases h with h | h
    · cases h
    · exact ih h

namespace Formula

theorem eval_normalForm (f : Formula) (r : Reading) (value : Variable → Bool) :
    (f.normalForm r).eval r value = f.eval value := by
  rw [normalForm_eq_clauseSet, DecisionTree.eval_clauseSet, eval_decisionTree,
    eval_canonicalize]

theorem vars_normalForm_subset (f : Formula) (r : Reading) : (f.normalForm r).vars ⊆ f.vars := by
  intro v hv
  rw [normalForm_eq_clauseSet] at hv
  have htree := DecisionTree.vars_clauseSet_subset _ v hv
  exact vars_canonicalize_subset f v (vars_decisionTree_subset _ v htree)

theorem canonical_normalForm (f : Formula) (r : Reading) : (f.normalForm r).Canonical := by
  rw [normalForm_eq_clauseSet]
  exact DecisionTree.canonical_clauseSet _

theorem normalForm_ne_no_clauses (f : Formula) (r : Reading) : f.normalForm r ≠ .clauses ∅ := by
  intro h
  have hcanonical := canonical_normalForm f r
  rw [h] at hcanonical
  exact hcanonical.1 rfl

theorem eval_minimalForm (f : Formula) (r : Reading) (value : Variable → Bool) :
    (f.minimalForm r).eval r value = f.eval value := by
  rw [minimalForm, ClauseSet.eval_optimize (normalForm_ne_no_clauses f r), eval_normalForm]

theorem vars_minimalForm_subset (f : Formula) (r : Reading) :
    (f.minimalForm r).vars ⊆ f.vars := by
  intro v hv
  have hnormal := ClauseSet.vars_optimize_subset (f.normalForm r) r.absorbing true v hv
  exact vars_normalForm_subset f r v hnormal

theorem normalForm_eq_const_iff {f : Formula} {r : Reading} {b : Bool} :
    f.normalForm r = .const b ↔ f.Constantly b := by
  rw [normalForm_eq_clauseSet, clauseSet_decisionTree_eq_const_iff, constantly_iff,
    constantly_iff]
  simp only [eval_canonicalize]

theorem minimalForm_eq_const_iff {f : Formula} {r : Reading} {b : Bool} :
    f.minimalForm r = .const b ↔ f.Constantly b := by
  constructor
  · intro h
    rw [constantly_iff]
    intro value
    rw [← eval_minimalForm f r, h, ClauseSet.eval]
  · intro h
    rw [minimalForm, normalForm_eq_const_iff.mpr h, ClauseSet.optimize]

theorem collapsed_not_mem_conversionLog (f : Formula) (r : Reading) (round : Nat)
    (reason : Collapse) (b : Bool) : Event.collapsed round reason b ∉ f.conversionLog r := by
  simp [conversionLog, normalFormLog]

theorem collapsed_not_mem_optimizeLog (f : Formula) (r : Reading) (round : Nat)
    (reason : Collapse) (b : Bool) :
    Event.collapsed round reason b ∉ (f.normalForm r).optimizeLog r.absorbing true := by
  intro h
  cases hnf : f.normalForm r with
  | const c =>
    rw [hnf] at h
    simp [ClauseSet.optimizeLog] at h
  | clauses cs =>
    rw [hnf] at h
    have hmin : f.minimalForm r = .const r.absorbing := by
      rw [minimalForm, hnf]
      exact UnitPropagation.Run.result_of_collapsed_mem_events h
    have hconst : f.normalForm r = .const r.absorbing :=
      normalForm_eq_const_iff.mpr (minimalForm_eq_const_iff.mp hmin)
    rw [hnf] at hconst
    cases hconst

/-- Conversion to a normal form and to its minimal form keeps the value of the
formula under every assignment that covers it. -/
theorem eval?_normalForm_and_minimalForm {f : Formula} {env : Assignment} {b : Bool}
    (h : f.eval? env = some b) (r : Reading) :
    (f.normalForm r).eval? r env = some b ∧ (f.minimalForm r).eval? r env = some b := by
  obtain ⟨hcovers, heval⟩ := eval?_eq_some_iff.mp h
  constructor
  · rw [ClauseSet.eval?_eq_some_iff, eval_normalForm]
    exact ⟨hcovers.mono (vars_normalForm_subset f r), heval⟩
  · rw [ClauseSet.eval?_eq_some_iff, eval_minimalForm]
    exact ⟨hcovers.mono (vars_minimalForm_subset f r), heval⟩

def reducible : Formula :=
  .binary .and (.not (.const false)) (.binary .or (.not (.not (.var .p))) (.var .q))

theorem eval?_normalForm_and_minimalForm_reducible :
    reducible.eval? (.ofList [(.p, true), (.q, false)]) = some true ∧
    (reducible.normalForm .disjunctive).eval? .disjunctive (.ofList [(.p, true), (.q, false)]) =
      some true ∧
    (reducible.minimalForm .disjunctive).eval? .disjunctive
      (.ofList [(.p, true), (.q, false)]) = some true := by
  have heval : reducible.eval? (.ofList [(.p, true), (.q, false)]) = some true := by decide
  exact ⟨heval, eval?_normalForm_and_minimalForm heval .disjunctive⟩

/-- Normal and minimal forms are truth values exactly for the formulas that are
constantly that value, and propagation of a normal form reports no collapse. -/
theorem const_iff_constantly (f : Formula) (r : Reading) :
    (∀ b, f.normalForm r = .const b ↔ f.Constantly b) ∧
    (∀ b, f.minimalForm r = .const b ↔ f.Constantly b) ∧
    (∀ b, f.minimalForm r = .const b ↔ f.normalForm r = .const b) ∧
    ∀ round reason fallback, Event.collapsed round reason fallback ∉ f.minimalFormLog r := by
  refine ⟨fun b => normalForm_eq_const_iff, fun b => minimalForm_eq_const_iff, ?_, ?_⟩
  · intro b
    rw [minimalForm_eq_const_iff, normalForm_eq_const_iff]
  · intro round reason fallback h
    rw [minimalFormLog, List.mem_append] at h
    rcases h with h | h
    · exact collapsed_not_mem_conversionLog f r round reason fallback h
    · exact collapsed_not_mem_optimizeLog f r round reason fallback h

end Formula

end Propositional
