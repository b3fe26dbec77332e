import Propositional.ClauseSet.Basic
import Propositional.Reading

/-!
# The meaning of a clause set

Under an assignment a clause is its literals joined by the inner connective of
the reading, and a set is its clauses joined by the outer one; both start from
the value that leaves the rest unchanged, and every literal is looked up.
`toFormula` builds the same value as a formula, simplifying as it goes.
-/

set_option autoImplicit false

namespace Propositional

namespace Clause

def eval? (c : Clause) (r : Reading) (env : Assignment) : Option Bool :=
  c.toList.foldlM (fun acc l => (l.eval? env).map (r.inner.eval acc)) r.absorbing

def toFormula (c : Clause) : Reading → Formula
  | .conjunctive => Formula.disjAll (c.toList.map Literal.toFormula)
  | .disjunctive => Formula.conjAll (c.toList.map Literal.toFormula)

theorem toFormula_eq_foldl (c : Clause) (r : Reading) :
    toFormula c r =
      (c.toList.map Literal.toFormula).foldl (Formula.combine r.inner) (.const r.absorbing) := by
  cases r <;> rfl

end Clause

namespace ClauseSet

def eval? (s : ClauseSet) (r : Reading) (env : Assignment) : Option Bool :=
  match s with
  | const b => some b
  | clauses cs =>
    cs.toList.foldlM (fun acc c => (Clause.eval? c r env).map (r.outer.eval acc)) r.identity

def toFormula (s : ClauseSet) (r : Reading) : Formula :=
  match s, r with
  | const b, _ => .const b
  | clauses cs, .conjunctive =>
    Formula.conjAll (cs.toList.map (Clause.toFormula · .conjunctive))
  | clauses cs, .disjunctive =>
    Formula.disjAll (cs.toList.map (Clause.toFormula · .disjunctive))

theorem toFormula_const (b : Bool) (r : Reading) : (const b).toFormula r = .const b := by
  cases r <;> rfl

theorem toFormula_clauses (cs : SortedSet Clause) (r : Reading) :
    (clauses cs).toFormula r =
      (cs.toList.map (Clause.toFormula · r)).foldl (Formula.combine r.outer)
        (.const r.identity) := by
  cases r <;> rfl

end ClauseSet

end Propositional
