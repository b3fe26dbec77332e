import Propositional.Proofs.Formula.Substitution
import Propositional.Proofs.Formula.Valuation

/-!
# Negation of canonical formulas and the test for complements

Building a negation strips a negation, puts one on or flips a constant, and the
test for complements looks for a negation on either side. On canonical formulas
the two agree: negation undoes itself, and the complement of a formula that is
not a constant is its negation and nothing else. Constants are negated without
a node, so the test relates no two of them.
-/

set_option autoImplicit false

namespace Propositional.Formula

variable {f g : Formula}

theorem eq_negate_iff (hf : f.Canonical) (hg : g.Canonical) : g = f.negate ↔ f = g.negate := by
  constructor
  · rintro rfl
    exact (negate_negate hf.irreducible).symm
  · rintro rfl
    exact (negate_negate hg.irreducible).symm

theorem IsComplement.isConst_eq_false (h : f.IsComplement g) (hg : g.Canonical) :
    f.isConst = false := by
  rcases h with rfl | rfl
  · rfl
  · exact hg.irreducible.1

theorem isComplement_iff (hg : g.Canonical) :
    f.IsComplement g ↔ g = f.negate ∧ f.isConst = false := by
  constructor
  · exact fun h => ⟨h.eq_negate hg, h.isConst_eq_false hg⟩
  · rintro ⟨rfl, hconst⟩
    exact isComplement_negate hconst

theorem not_isComplement_const (a b : Bool) : ¬(const a).IsComplement (const b) := nofun

/-- On canonical formulas negation is an involution and the test for complements
finds just the negation, except that it relates no constants, which negation
exchanges. So the test is symmetric, and no formula passes it with itself.
Negation and substitution may be exchanged. -/
theorem negation_detected_by_isComplement (f g : Formula) (hf : f.Canonical)
    (hg : g.Canonical) :
    f.negate.negate = f ∧
    (g = f.negate ↔ f = g.negate) ∧
    (f.IsComplement g ↔ g = f.negate ∧ f.isConst = false) ∧
    (∀ a b : Bool, (const a).negate = const (!a) ∧ ¬(const a).IsComplement (const b)) ∧
    (f.IsComplement g ↔ g.IsComplement f) ∧
    (∀ h : Formula, ¬h.IsComplement h) ∧
    ∀ (v : Variable) (b : Bool), f.negate.substitute v b = (f.substitute v b).negate := by
  refine ⟨negate_negate hf.irreducible, eq_negate_iff hf hg, isComplement_iff hg, ?_, ?_, ?_, ?_⟩
  · exact fun a b => ⟨rfl, not_isComplement_const a b⟩
  · exact ⟨IsComplement.symm, IsComplement.symm⟩
  · exact fun h hself => hself.ne rfl
  · exact fun v b => substitute_negate hf v b

def negatedChoice : Formula :=
  .not (.binary .or (.binary .and (.var .p) (.not (.var .q)))
    (.not (.binary .or (.var .p) (.var .r))))

theorem negation_detected_by_isComplement_negatedChoice :
    negatedChoice.Canonical ∧ negatedChoice.negate.Canonical ∧
      negatedChoice.IsComplement negatedChoice.negate ∧
      negatedChoice.substitute .p true = .var .q ∧
      negatedChoice.negate.substitute .p true = .not (.var .q) := by
  have hcanonical : negatedChoice.Canonical := by decide
  have hnegate : negatedChoice.negate.Canonical := by decide
  obtain ⟨-, -, hiff, -, -, -, hsub⟩ :=
    negation_detected_by_isComplement negatedChoice negatedChoice.negate hcanonical hnegate
  have htrue : negatedChoice.substitute .p true = .var .q := by decide
  refine ⟨hcanonical, hnegate, hiff.mpr ⟨rfl, rfl⟩, htrue, ?_⟩
  rw [hsub, htrue]
  rfl

/-- Below a stack of negations a negation is lost, and the complement that the
test finds is not the negation. -/
example : (not (not (not (.var .p)))).negate.negate = not (.var .p) ∧
    (not (not (.var .p))).IsComplement (not (not (not (.var .p)))) ∧
    (not (not (.var .p))).negate = not (.var .p) := by decide

end Propositional.Formula
