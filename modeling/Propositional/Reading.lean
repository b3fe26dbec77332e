import Propositional.Connective

/-!
# The two readings of a clause set

A set of clauses is read as a conjunction of disjunctions or as a disjunction
of conjunctions. The reading fixes the connective between clauses and the one
inside a clause; their neutral values are the identity and the absorbing value
of the reading.
-/

set_option autoImplicit false

namespace Propositional

inductive Reading where
  | conjunctive
  | disjunctive
  deriving DecidableEq

namespace Reading

def identity : Reading → Bool
  | conjunctive => true
  | disjunctive => false

def absorbing (r : Reading) : Bool := !r.identity

def dual : Reading → Reading
  | conjunctive => disjunctive
  | disjunctive => conjunctive

def outer : Reading → Connective
  | conjunctive => .and
  | disjunctive => .or

def inner (r : Reading) : Connective := r.dual.outer

@[simp] theorem dual_dual (r : Reading) : r.dual.dual = r := by
  cases r <;> rfl

@[simp] theorem identity_dual (r : Reading) : r.dual.identity = r.absorbing := by
  cases r <;> rfl

@[simp] theorem absorbing_dual (r : Reading) : r.dual.absorbing = r.identity := by
  cases r <;> rfl

theorem outer_identity (r : Reading) (b : Bool) : r.outer.eval r.identity b = b := by
  cases r <;> cases b <;> rfl

theorem inner_absorbing (r : Reading) (b : Bool) : r.inner.eval r.absorbing b = b := by
  cases r <;> cases b <;> rfl

end Reading

end Propositional
