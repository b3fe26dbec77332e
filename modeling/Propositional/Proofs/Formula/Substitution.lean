import Propositional.Proofs.Formula.Canonical

/-!
# Substitution and canonical forms

Substitution builds only the nodes above an occurrence again, and on a formula
with reducible nodes it builds them on operands that may be reducible too. On
canonical formulas it goes through every way of building with simplification:
what a node simplifies to before the substitution simplifies to the same after
it. So substituting before the canonical form is taken, when other nodes have
operands that are constant, equal or complementary, gives what substituting in
the canonical form gives.
-/

set_option autoImplicit false

namespace Propositional.Formula

variable {c : Connective} {f l r : Formula} {v : Variable} {b : Bool}

theorem substitute_collapse (h : f.Canonical) (x y : Bool) :
    (f.collapse x y).substitute v b = (f.substitute v b).collapse x y := by
  rw [collapse, collapse]
  split
  · rfl
  · split
    · exact substitute_negate h v b
    · rfl

theorem IsComplement.eq_negate (h : l.IsComplement r) (hr : r.Canonical) : r = l.negate := by
  rcases h with rfl | rfl
  · rfl
  · exact (negate_of_irreducible hr.irreducible).symm

/-- On canonical operands a node may be built before or after substituting. -/
theorem substitute_combine (hl : l.Canonical) (hr : r.Canonical) :
    (combine c l r).substitute v b = combine c (l.substitute v b) (r.substitute v b) := by
  have hsub : (l.substitute v b).Canonical := canonical_substitute hl v b
  rcases combine_cases c l r with
    ⟨a, rfl, h⟩ | ⟨a, rfl, h⟩ | ⟨rfl, h⟩ | ⟨hc, h⟩ | ⟨hirr, h⟩ <;> rw [h]
  · rw [substitute_collapse hr]
    exact (combine_const_left a).symm
  · rw [substitute_collapse hl]
    exact (combine_const_right a).symm
  · rw [substitute_collapse hl, combine_self]
  · rw [substitute_collapse hl, hc.eq_negate hr, substitute_negate hl,
      combine_negate_right hsub.irreducible]
  · exact substitute_binary_of_irreducible hirr v b

/-- Substituting and taking the canonical form may be exchanged, whether the
formula has reducible nodes or not. -/
theorem canonicalize_substitute (f : Formula) (v : Variable) (b : Bool) :
    (f.substitute v b).canonicalize = f.canonicalize.substitute v b := by
  induction f with
  | const a => rfl
  | var w =>
    rw [substitute, replace?]
    by_cases h : w = v
    · simp [h, canonicalize, canonicalize?, substitute, replace?]
    · simp [h, canonicalize, canonicalize?, substitute, replace?]
  | not f ih =>
    have hnot : ((not f).substitute v b).canonicalize = (f.substitute v b).canonicalize.negate := by
      rcases substitute_not f v b with h | h
      · rw [h, canonicalize_negate]
      · rw [h, canonicalize_not]
    rw [hnot, ih, canonicalize_not, substitute_negate (canonical_canonicalize f)]
  | binary c l r ihl ihr =>
    have hbinary : ((binary c l r).substitute v b).canonicalize =
        combine c (l.substitute v b).canonicalize (r.substitute v b).canonicalize := by
      rcases substitute_binary c l r v b with h | h
      · rw [h, canonicalize_combine]
      · rw [h, canonicalize_binary]
    rw [hbinary, ihl, ihr, canonicalize_binary,
      substitute_combine (canonical_canonicalize l) (canonical_canonicalize r)]

end Propositional.Formula
