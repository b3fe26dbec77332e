import Propositional.Formula.Simplify

/-!
# Canonical formulas

A node is irreducible when building it with simplification would leave it as
it is, and a formula is canonical when all its nodes are irreducible. The
formula `canonicalize` returns is the bottom-up rebuilding of its argument;
subtrees that are canonical already are kept and not built again.
-/

set_option autoImplicit false

namespace Propositional.Formula

def Irreducible : Formula → Prop
  | const _ => True
  | var _ => True
  | not f => f.isConst = false ∧ f.isNot = false
  | binary _ l r => l.isConst = false ∧ r.isConst = false ∧ l ≠ r ∧ ¬l.IsComplement r

instance : DecidablePred Irreducible
  | const _ => inferInstanceAs (Decidable True)
  | var _ => inferInstanceAs (Decidable True)
  | not f => inferInstanceAs (Decidable (f.isConst = false ∧ f.isNot = false))
  | binary _ l r => inferInstanceAs
      (Decidable (l.isConst = false ∧ r.isConst = false ∧ l ≠ r ∧ ¬l.IsComplement r))

def Canonical : Formula → Prop
  | const _ => True
  | var _ => True
  | not f => f.Canonical ∧ (not f).Irreducible
  | binary c l r => l.Canonical ∧ r.Canonical ∧ (binary c l r).Irreducible

def decideCanonical : (f : Formula) → Decidable f.Canonical
  | const _ => inferInstanceAs (Decidable True)
  | var _ => inferInstanceAs (Decidable True)
  | not f =>
    have := decideCanonical f
    inferInstanceAs (Decidable (f.Canonical ∧ (not f).Irreducible))
  | binary c l r =>
    have := decideCanonical l
    have := decideCanonical r
    inferInstanceAs (Decidable (l.Canonical ∧ r.Canonical ∧ (binary c l r).Irreducible))

instance : DecidablePred Canonical := decideCanonical

theorem negate_of_irreducible {f : Formula} (h : (not f).Irreducible) : f.negate = not f := by
  cases f <;> simp_all [Irreducible, negate, isConst, isNot]

theorem combine_of_irreducible {c : Connective} {l r : Formula}
    (h : (binary c l r).Irreducible) : combine c l r = binary c l r := by
  obtain ⟨hl, hr, hne, hc⟩ := h
  rw [combine, asConst?_eq_none_iff.mpr hl, asConst?_eq_none_iff.mpr hr]
  simp [hne, hc]

def canonicalize? : Formula → Option Formula
  | const _ => none
  | var _ => none
  | not f =>
    match f.canonicalize? with
    | some g => some g.negate
    | none => if (not f).Irreducible then none else some f.negate
  | binary c l r =>
    match l.canonicalize?, r.canonicalize? with
    | none, none => if (binary c l r).Irreducible then none else some (combine c l r)
    | l', r' => some (combine c (l'.getD l) (r'.getD r))

def canonicalize (f : Formula) : Formula := f.canonicalize?.getD f

def rebuild : Formula → Formula
  | const b => const b
  | var v => var v
  | not f => f.rebuild.negate
  | binary c l r => combine c l.rebuild r.rebuild

end Propositional.Formula
