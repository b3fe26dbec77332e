import Propositional.Variable
import Propositional.Connective

/-!
# Propositional formulas

A formula is a tree of constants, variables, negations and binary
connectives. The constructors build nodes as they are; building with
simplification is a separate matter. Two formulas are complementary when one
of them is, node for node, the negation of the other.
-/

set_option autoImplicit false

namespace Propositional

inductive Formula where
  | const (value : Bool)
  | var (v : Variable)
  | not (inner : Formula)
  | binary (c : Connective) (left right : Formula)
  deriving DecidableEq

namespace Formula

def asConst? : Formula → Option Bool
  | const b => some b
  | _ => none

def isConst : Formula → Bool
  | const _ => true
  | _ => false

def isVar : Formula → Bool
  | var _ => true
  | _ => false

def isNot : Formula → Bool
  | not _ => true
  | _ => false

def isBinary : Formula → Bool
  | binary .. => true
  | _ => false

def isConnective (c : Connective) : Formula → Bool
  | binary d _ _ => d == c
  | _ => false

def isLiteral : Formula → Bool
  | var _ => true
  | not f => f.isVar
  | _ => false

theorem isConst_iff {f : Formula} : f.isConst = true ↔ ∃ b, f = const b := by
  cases f <;> simp [isConst]

theorem isBinary_iff {f : Formula} : f.isBinary = true ↔ ∃ c l r, f = binary c l r := by
  cases f <;> simp [isBinary]

theorem asConst?_eq_some_iff {f : Formula} {b : Bool} : f.asConst? = some b ↔ f = const b := by
  cases f <;> simp [asConst?]

theorem asConst?_eq_none_iff {f : Formula} : f.asConst? = none ↔ f.isConst = false := by
  cases f <;> simp [asConst?, isConst]

def IsComplement (f g : Formula) : Prop := f = not g ∨ g = not f

instance (f g : Formula) : Decidable (f.IsComplement g) :=
  inferInstanceAs (Decidable (f = not g ∨ g = not f))

theorem IsComplement.symm {f g : Formula} (h : f.IsComplement g) : g.IsComplement f :=
  Or.symm h

end Formula

end Propositional
