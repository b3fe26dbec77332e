import Propositional.DecisionTree
import Propositional.Formula.Canonical
import Propositional.UnitPropagation

/-!
# Normal forms

A canonical formula is expanded on its pivot, first with the absorbing value of
the reading and then with its identity, until no variable is left. The expansion
reports the pivots and collects the clauses of the branches as it goes. Both are
read off one tree: the reports are its tests in the order of the reading, and
the clauses are its clause set. The minimal form goes on with unit propagation
until nothing changes; a degenerate set gives the absorbing value.
-/

set_option autoImplicit false

namespace Propositional.Formula

def expand (f : Formula) (r : Reading) (depth : Nat) : List (Nat × Variable) × ClauseSet :=
  match h : f.pivot with
  | none => ([], .const (f.eval fun _ => r.identity))
  | some v =>
    have := mem_occurrences_of_pivot h
    let absorbed := (f.substitute v r.absorbing).expand r (depth + 1)
    let kept := (f.substitute v r.identity).expand r (depth + 1)
    ((depth, v) :: (absorbed.1 ++ kept.1),
      DecisionTree.collapse v r (DecisionTree.guardedBy (.positive v) r absorbed.2 ∪
        DecisionTree.guardedBy (.negative v) r kept.2))
termination_by f.occurrences.length
decreasing_by all_goals exact occurrences_substitute_lt _ this

/-- One recursion computes both folds of the tree. -/
theorem expand_eq (f : Formula) (r : Reading) (depth : Nat) :
    f.expand r depth = (f.decisionTree.pivots r depth, f.decisionTree.clauseSet r) := by
  fun_induction expand f r depth with
  | case1 f depth h =>
    have hvars : ∀ v ∈ f.vars, r.identity = false := by
      intro v hv
      rw [mem_vars, pivot_eq_none_iff.mp h] at hv
      cases hv
    rw [decisionTree_of_pivot_none h, DecisionTree.pivots, DecisionTree.clauseSet,
      eval_congr hvars]
  | case2 f depth v h _ absorbed kept iha ihk =>
    rw [decisionTree_of_pivot_some h, DecisionTree.pivots, DecisionTree.clauseSet]
    simp only [absorbed, kept, iha, ihk]
    cases r <;> rfl

def normalForm (f : Formula) (r : Reading) : ClauseSet :=
  (f.canonicalize.expand r 0).2

theorem normalForm_eq_clauseSet (f : Formula) (r : Reading) :
    f.normalForm r = f.canonicalize.decisionTree.clauseSet r := by
  rw [normalForm, expand_eq]

def minimalForm (f : Formula) (r : Reading) : ClauseSet :=
  (f.normalForm r).optimize r.absorbing true

end Propositional.Formula
