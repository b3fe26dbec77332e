import Propositional.NormalForm
import Propositional.Proofs.DecisionTree.Symmetry
import Propositional.Proofs.Formula.Canonical

/-!
# Negation exchanges the two normal forms

On canonical formulas negation changes no pivot and may be exchanged with
substitution, so a formula and its negation have the same decision tree up to
the values of the leaves. Read the other way the tree with opposite leaves has
the same clauses with opposite literals, and as going over to opposite literals
is a symmetry of unit propagation, the minimal forms are exchanged as well.
-/

set_option autoImplicit false

namespace Propositional

namespace ClauseSet

def dual : ClauseSet → ClauseSet
  | const b => const !b
  | clauses cs => clauses (cs.map fun c => c.map Literal.negate)

theorem dual_eq (s : ClauseSet) : s.dual = LiteralSymmetry.negation.clauseSet (!·) s := by
  cases s <;> rfl

theorem optimize_dual (s : ClauseSet) (fallback recursive : Bool) :
    s.dual.optimize (!fallback) recursive = (s.optimize fallback recursive).dual := by
  rw [dual_eq, dual_eq]
  exact LiteralSymmetry.negation.optimize_clauseSet (!·) s fallback recursive

end ClauseSet

namespace DecisionTree

variable {r : Reading}

def negate : DecisionTree → DecisionTree
  | leaf b => leaf !b
  | branch v low high => branch v low.negate high.negate

theorem carries_not : Carries (!·) r r.dual := by
  intro b
  cases r <;> cases b <;> decide

theorem clauseSet_negate (t : DecisionTree) :
    t.negate.clauseSet r.dual = (t.clauseSet r).dual := by
  induction t with
  | leaf b => rfl
  | branch v low high ihl ihh =>
    rw [ClauseSet.dual_eq] at ihl ihh ⊢
    exact clauseSet_branch_image carries_not (fun _ => Literal.guard_dual) ihl ihh

end DecisionTree

namespace Formula

theorem pivot_negate (f : Formula) : f.negate.pivot = f.pivot := by
  rw [pivot_eq_head?, pivot_eq_head?, occurrences_negate]

theorem decisionTree_negate {f : Formula} (h : f.Canonical) :
    f.negate.decisionTree = f.decisionTree.negate := by
  induction f using decisionTree.induct with
  | case1 f hpivot =>
    rw [decisionTree_of_pivot_none hpivot,
      decisionTree_of_pivot_none ((pivot_negate f).trans hpivot), eval_negate, DecisionTree.negate]
  | case2 f v hpivot _ ihl ihh =>
    rw [decisionTree_of_pivot_some hpivot,
      decisionTree_of_pivot_some ((pivot_negate f).trans hpivot), substitute_negate h,
      substitute_negate h, ihl (canonical_substitute h v false),
      ihh (canonical_substitute h v true), DecisionTree.negate]

theorem normalForm_negate (f : Formula) (r : Reading) :
    f.negate.normalForm r.dual = (f.normalForm r).dual := by
  rw [normalForm_eq_clauseSet, normalForm_eq_clauseSet, canonicalize_negate,
    decisionTree_negate (canonical_canonicalize f), DecisionTree.clauseSet_negate]

theorem minimalForm_negate (f : Formula) (r : Reading) :
    f.negate.minimalForm r.dual = (f.minimalForm r).dual := by
  have habsorbing : r.dual.absorbing = !r.absorbing := by cases r <;> rfl
  rw [minimalForm, minimalForm, normalForm_negate, habsorbing, ClauseSet.optimize_dual]

/-- The normal and minimal forms of a negation are those of the formula in the
other reading with the truth value or all literals negated. -/
theorem forms_of_negate_eq_dual (f : Formula) :
    f.negate.normalForm .disjunctive = (f.normalForm .conjunctive).dual ∧
      f.negate.normalForm .conjunctive = (f.normalForm .disjunctive).dual ∧
      f.negate.minimalForm .disjunctive = (f.minimalForm .conjunctive).dual ∧
      f.negate.minimalForm .conjunctive = (f.minimalForm .disjunctive).dual :=
  ⟨normalForm_negate f .conjunctive, normalForm_negate f .disjunctive,
    minimalForm_negate f .conjunctive, minimalForm_negate f .disjunctive⟩

end Formula

end Propositional
