import Propositional.Assignment
import Propositional.Formula.Simplify

/-!
# Literals

A literal is a variable or its negation. Literals are ordered by variable
first and the positive one before the negative one, so the two literals of a
variable stand next to each other.
-/

set_option autoImplicit false

namespace Propositional

structure Literal where
  var : Variable
  negated : Bool
  deriving DecidableEq

namespace Literal

def positive (v : Variable) : Literal := ⟨v, false⟩

def negative (v : Variable) : Literal := ⟨v, true⟩

def negate (l : Literal) : Literal := ⟨l.var, !l.negated⟩

@[simp] theorem negate_negate (l : Literal) : l.negate.negate = l := by
  simp [negate]

theorem negate_ne (l : Literal) : l.negate ≠ l := by
  intro h
  have : (!l.negated) = l.negated := congrArg negated h
  simp at this

theorem negate_inj {l k : Literal} : l.negate = k.negate ↔ l = k :=
  ⟨fun h => by simpa using congrArg negate h, congrArg negate⟩

theorem eq_or_eq_negate {k l : Literal} (h : k.var = l.var) : k = l ∨ k = l.negate := by
  obtain ⟨v, m⟩ := k
  obtain ⟨w, n⟩ := l
  obtain rfl : v = w := h
  by_cases hmn : m = n
  · exact .inl (by rw [hmn])
  · exact .inr (by rw [negate, Bool.eq_not.mpr hmn])

def order : Literal → Literal → Ordering :=
  compareLex (compareOn var) (@compareOn _ _ instOrdBool negated)

instance : Ord Literal := ⟨order⟩

instance : Std.TransOrd Literal := inferInstanceAs (Std.TransCmp (compareLex _ _))

instance : Std.LawfulEqOrd Literal where
  compare_self {l} := @Std.ReflCmp.compare_self _ (compareLex _ _) _ l
  eq_of_compare {l k} h := by
    obtain ⟨hv, hn⟩ := Ordering.then_eq_eq.mp h
    cases l
    cases k
    simp_all [compareOn]

def toFormula (l : Literal) : Formula :=
  if l.negated then (Formula.var l.var).negate else .var l.var

def eval (l : Literal) (value : Variable → Bool) : Bool :=
  if l.negated then !value l.var else value l.var

def eval? (l : Literal) (env : Assignment) : Option Bool :=
  (env.get? l.var).map fun b => if l.negated then !b else b

end Literal

end Propositional
