import Propositional.Formula.Basic

/-!
# Building formulas with simplification

`negate` and `combine` build a negation and a binary formula and simplify at
the new node. A binary formula with a constant operand, with equal operands or
with complementary operands reaches only two rows of the truth table of its
connective, one with the kept operand false and one with it true. It collapses
to a constant, that operand or its negation, as these two rows have it.
-/

set_option autoImplicit false

namespace Propositional.Formula

def negate : Formula → Formula
  | const b => const !b
  | not f => f
  | var v => not (var v)
  | binary c l r => not (binary c l r)

def collapse (ifFalse ifTrue : Bool) (operand : Formula) : Formula :=
  if ifFalse = ifTrue then const ifFalse
  else if ifFalse then operand.negate
  else operand

def combine (c : Connective) (l r : Formula) : Formula :=
  match l.asConst?, r.asConst? with
  | some a, some b => const (c.eval a b)
  | some a, none => r.collapse (c.eval a false) (c.eval a true)
  | none, some b => l.collapse (c.eval false b) (c.eval true b)
  | none, none =>
    if l = r then l.collapse (c.eval false false) (c.eval true true)
    else if l.IsComplement r then l.collapse (c.eval false true) (c.eval true false)
    else binary c l r

def conj (l r : Formula) : Formula := combine .and l r

def disj (l r : Formula) : Formula := combine .or l r

def implies (l r : Formula) : Formula := combine .implies l r

instance : Complement Formula := ⟨negate⟩

instance : AndOp Formula := ⟨conj⟩

instance : OrOp Formula := ⟨disj⟩

instance : ShiftRight Formula := ⟨implies⟩

def conjAll (fs : List Formula) : Formula := fs.foldl conj (const true)

def disjAll (fs : List Formula) : Formula := fs.foldl disj (const false)

end Propositional.Formula
