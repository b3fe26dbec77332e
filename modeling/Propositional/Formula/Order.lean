import Propositional.Formula.Basic

/-!
# The size and the order of formulas

The size of a formula is the number of its nodes. A negation is larger than what
it negates, so a formula is no complement of itself. In the order of formulas
constants come first, then variables, negations and binary formulas. Two
formulas of one kind are compared part by part, false before true, and the
connective of a binary formula before its operands.
-/

set_option autoImplicit false

namespace Propositional.Formula

def size : Formula → Nat
  | const _ => 1
  | var _ => 1
  | not f => f.size + 1
  | binary _ l r => l.size + r.size + 1

theorem size_pos (f : Formula) : 0 < f.size := by
  cases f <;> simp [size]

theorem IsComplement.ne {f g : Formula} (h : f.IsComplement g) : f ≠ g := by
  rintro rfl
  have hs : f.size = f.size + 1 := by
    rcases h with h | h <;> exact congrArg size h
  omega

def order : Formula → Formula → Ordering
  | const a, const b => instOrdBool.compare a b
  | const _, _ => .lt
  | _, const _ => .gt
  | var v, var w => compare v w
  | var _, _ => .lt
  | _, var _ => .gt
  | not f, not g => order f g
  | not _, _ => .lt
  | _, not _ => .gt
  | binary c l r, binary d l' r' =>
    (compare c d).then ((order l l').then (order r r'))

instance : Ord Formula := ⟨order⟩

theorem order_eq_iff {f g : Formula} : order f g = .eq ↔ f = g := by
  induction f generalizing g with
  | const a => cases g <;> simp [order]
  | var v => cases g <;> simp [order]
  | not f ih => cases g <;> simp [order, ih]
  | binary c l r ihl ihr =>
    cases g with
    | binary d l' r' =>
      cases c <;> cases d <;>
        simp [order, compare, compareOfLessAndEq, Connective.rank, Ordering.then_eq_eq, ihl, ihr]
    | _ => simp [order]

end Propositional.Formula
