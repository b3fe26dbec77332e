import Propositional.ClauseSet.Basic
import Propositional.Reading
import Propositional.Formula.Evaluation
import Propositional.Formula.Substitution

/-!
# Decision trees of formulas

A formula is expanded on its pivot: `f` is `f` with the pivot false if the
pivot is false, and `f` with the pivot true otherwise. Doing so until no
variable is left gives a binary decision tree whose leaves are truth values.

The clauses of a reading are collected from the tree. The branch on which the
pivot has the absorbing value goes with the positive literal: read as a
conjunction of disjunctions `f` is `(v ∨ low) ∧ (¬v ∨ high)`, and read as a
disjunction of conjunctions `(v ∧ high) ∨ (¬v ∧ low)`.
-/

set_option autoImplicit false

namespace Propositional

inductive DecisionTree where
  | leaf (value : Bool)
  | branch (v : Variable) (low high : DecisionTree)
  deriving DecidableEq

namespace Formula

def decisionTree (f : Formula) : DecisionTree :=
  match h : f.pivot with
  | none => .leaf (f.eval fun _ => false)
  | some v =>
    have := mem_occurrences_of_pivot h
    .branch v (f.substitute v false).decisionTree (f.substitute v true).decisionTree
termination_by f.occurrences.length
decreasing_by all_goals exact occurrences_substitute_lt _ this

theorem decisionTree_of_pivot_none {f : Formula} (h : f.pivot = none) :
    f.decisionTree = .leaf (f.eval fun _ => false) := by
  rw [decisionTree]
  split
  · rfl
  · simp_all

theorem decisionTree_of_pivot_some {f : Formula} {v : Variable} (h : f.pivot = some v) :
    f.decisionTree =
      .branch v (f.substitute v false).decisionTree (f.substitute v true).decisionTree := by
  rw [decisionTree]
  split
  · simp_all
  · simp_all

end Formula

namespace DecisionTree

def eval (value : Variable → Bool) : DecisionTree → Bool
  | leaf b => b
  | branch v low high => if value v then high.eval value else low.eval value

def guardedBy (l : Literal) (r : Reading) : ClauseSet → SortedSet Clause
  | .const b => if b = r.identity then ∅ else {{l}}
  | .clauses cs => cs.map (insert l)

/-- Two opposite unit clauses alone make the absorbing value, and no clauses
the identity. -/
def collapse (v : Variable) (r : Reading) (cs : SortedSet Clause) : ClauseSet :=
  if cs = ∅ then .const r.identity
  else if cs = {{Literal.positive v}} ∪ {{Literal.negative v}} then .const r.absorbing
  else .clauses cs

def clauseSet (r : Reading) : DecisionTree → ClauseSet
  | leaf b => .const b
  | branch v low high =>
    let absorbed := if r.absorbing then high.clauseSet r else low.clauseSet r
    let kept := if r.identity then high.clauseSet r else low.clauseSet r
    collapse v r (guardedBy (.positive v) r absorbed ∪ guardedBy (.negative v) r kept)

def pivots (r : Reading) (depth : Nat) : DecisionTree → List (Nat × Variable)
  | leaf _ => []
  | branch v low high =>
    let ofLow := low.pivots r (depth + 1)
    let ofHigh := high.pivots r (depth + 1)
    (depth, v) :: if r.absorbing then ofHigh ++ ofLow else ofLow ++ ofHigh

end DecisionTree

end Propositional
