import Propositional.Literal
import Propositional.SortedSet.Lemmas

/-!
# Clauses and clause sets

A clause is a set of literals. A clause set is a truth value or a set of
clauses; how the clauses are joined is left to a reading. No clauses, and a
set with an empty clause, are degenerate: they stand for a truth value that
the reading gives.
-/

set_option autoImplicit false

namespace Propositional

abbrev Clause := SortedSet Literal

inductive ClauseSet where
  | const (value : Bool)
  | clauses (cs : SortedSet Clause)
  deriving DecidableEq

namespace ClauseSet

def asConst? : ClauseSet → Option Bool
  | const b => some b
  | clauses _ => none

def clauses? : ClauseSet → Option (SortedSet Clause)
  | const _ => none
  | clauses cs => some cs

def clauseCount (s : ClauseSet) : Nat := (s.clauses?.map (·.size)).getD 0

def insertClause (c : Clause) (s : ClauseSet) : ClauseSet :=
  clauses (insert c (s.clauses?.getD ∅))

def eraseClause (c : Clause) (s : ClauseSet) : ClauseSet :=
  clauses ((s.clauses?.getD ∅).erase c)

def Canonical : ClauseSet → Prop
  | const _ => True
  | clauses cs => cs ≠ ∅ ∧ ∅ ∉ cs

instance : DecidablePred Canonical
  | const _ => inferInstanceAs (Decidable True)
  | clauses cs => inferInstanceAs (Decidable (cs ≠ ∅ ∧ ∅ ∉ cs))

end ClauseSet

end Propositional
