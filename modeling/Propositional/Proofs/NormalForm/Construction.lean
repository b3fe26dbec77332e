import Propositional.NormalForm
import Propositional.Proofs.Formula.Canonical
import Propositional.Proofs.Formula.Valuation

/-!
# Conversion does not see how a formula was built

A formula may be put together with simplification at some nodes and without it
at others. Making it canonical rebuilds every node that can be simplified, so
what was left undone is caught up on, and simplifying early is no different
from simplifying late. Conversion begins with the canonical form, so it gives
the same clauses for all ways of building on one plan.
-/

set_option autoImplicit false

namespace Propositional.Formula

inductive BuiltOn : Formula → Formula → Prop where
  | const (b : Bool) : BuiltOn (const b) (const b)
  | var (v : Variable) : BuiltOn (var v) (var v)
  | not {t f : Formula} : BuiltOn t f → BuiltOn (not t) (not f)
  | negate {t f : Formula} : BuiltOn t f → BuiltOn (not t) f.negate
  | binary {t u f g : Formula} (c : Connective) : BuiltOn t f → BuiltOn u g →
      BuiltOn (binary c t u) (binary c f g)
  | combine {t u f g : Formula} (c : Connective) : BuiltOn t f → BuiltOn u g →
      BuiltOn (binary c t u) (combine c f g)

theorem BuiltOn.refl (f : Formula) : BuiltOn f f := by
  induction f with
  | const b => exact .const b
  | var v => exact .var v
  | not f ih => exact .not ih
  | binary c l r ihl ihr => exact .binary c ihl ihr

theorem BuiltOn.canonicalize_eq {t f : Formula} (h : BuiltOn t f) :
    f.canonicalize = t.canonicalize := by
  induction h with
  | const b => rfl
  | var v => rfl
  | not _ ih => rw [canonicalize_not, canonicalize_not, ih]
  | negate _ ih => rw [canonicalize_negate, canonicalize_not, ih]
  | binary c _ _ ihl ihr => rw [canonicalize_binary, canonicalize_binary, ihl, ihr]
  | combine c _ _ ihl ihr => rw [canonicalize_combine, canonicalize_binary, ihl, ihr]

theorem normalForm_congr {f g : Formula} (h : f.canonicalize = g.canonicalize) (r : Reading) :
    f.normalForm r = g.normalForm r := by
  rw [normalForm, normalForm, h]

theorem minimalForm_congr {f g : Formula} (h : f.canonicalize = g.canonicalize) (r : Reading) :
    f.minimalForm r = g.minimalForm r := by
  rw [minimalForm, minimalForm, normalForm_congr h]

/-- A node has one canonical form, built with simplification or without, and it
is the node built with simplification on canonical operands. So formulas built
on one plan have one canonical form and the same normal and minimal forms. -/
theorem canonicalize_eq_of_builtOn :
    (∀ (c : Connective) (l r : Formula),
      (combine c l r).canonicalize = (binary c l r).canonicalize ∧
        (binary c l r).canonicalize = combine c l.canonicalize r.canonicalize) ∧
    (∀ f : Formula, f.negate.canonicalize = (not f).canonicalize ∧
      (not f).canonicalize = f.canonicalize.negate) ∧
    ∀ plan f g : Formula, BuiltOn plan f → BuiltOn plan g →
      f.canonicalize = g.canonicalize ∧
        ∀ r : Reading, f.normalForm r = g.normalForm r ∧ f.minimalForm r = g.minimalForm r := by
  refine ⟨?_, ?_, ?_⟩
  · intro c l r
    rw [canonicalize_combine, canonicalize_binary]
    exact ⟨rfl, rfl⟩
  · intro f
    rw [canonicalize_negate, canonicalize_not]
    exact ⟨rfl, rfl⟩
  · intro plan f g hf hg
    have hcanonical : f.canonicalize = g.canonicalize :=
      hf.canonicalize_eq.trans hg.canonicalize_eq.symm
    exact ⟨hcanonical, fun r => ⟨normalForm_congr hcanonical r, minimalForm_congr hcanonical r⟩⟩

def plain : Formula :=
  .binary .and (.not (.not (.var .p))) (.binary .or (.var .q) (.not (.const true)))

def mixed : Formula :=
  combine .and (.not (negate (.var .p))) (.binary .or (.var .q) (negate (.const true)))

theorem canonicalize_eq_of_builtOn_plain :
    BuiltOn plain plain ∧ BuiltOn plain mixed ∧ plain ≠ mixed ∧
      plain.canonicalize = mixed.canonicalize ∧
      plain.minimalForm .conjunctive = mixed.minimalForm .conjunctive := by
  have hplain : BuiltOn plain plain := .refl plain
  have hmixed : BuiltOn plain mixed :=
    .combine .and (.not (.negate (.var .p))) (.binary .or (.var .q) (.negate (.const true)))
  obtain ⟨hcanonical, hforms⟩ := canonicalize_eq_of_builtOn.2.2 plain plain mixed hplain hmixed
  exact ⟨hplain, hmixed, by decide, hcanonical, (hforms .conjunctive).2⟩

end Propositional.Formula
