import Propositional.Proofs.DecisionTree.Symmetry
import Propositional.Proofs.Formula.Renaming
import Propositional.Proofs.NormalForm.Meaning
import Propositional.Proofs.UnitPropagation.Equivariance

/-!
# Conversion sees only which variables are equal

Sets of literals and of clauses are kept in the order of the names, and a
renaming may turn that order round. An injective renaming passes through every
step of the expansion and is a symmetry of the literals, so it takes the normal
and the minimal forms of a formula to those of the renamed one. Both mention
variables of the formula only, so it is enough that the renaming is injective
on these.
-/

set_option autoImplicit false

namespace Propositional

variable {ρ : Variable → Variable}

namespace Literal

def rename (ρ : Variable → Variable) (l : Literal) : Literal := ⟨ρ l.var, l.negated⟩

theorem rename_eq_relabel (ρ : Variable → Variable) : rename ρ = relabel ρ fun _ => false := by
  funext l
  simp [rename, relabel]

end Literal

namespace LiteralSymmetry

def ofInjective (hρ : Function.Injective ρ) : LiteralSymmetry where
  toFun := Literal.rename ρ
  injective := Literal.rename_eq_relabel ρ ▸ Literal.relabel_injective hρ
  map_negate _ := rfl

end LiteralSymmetry

namespace ClauseSet

def rename (ρ : Variable → Variable) : ClauseSet → ClauseSet
  | const b => const b
  | clauses cs => clauses (cs.map fun c => c.map (Literal.rename ρ))

theorem rename_eq (hρ : Function.Injective ρ) (s : ClauseSet) :
    s.rename ρ = (LiteralSymmetry.ofInjective hρ).clauseSet id s := by
  cases s <;> rfl

theorem rename_congr {σ : Variable → Variable} {s : ClauseSet} (h : ∀ v ∈ s.vars, ρ v = σ v) :
    s.rename ρ = s.rename σ := by
  cases s with
  | const b => rfl
  | clauses cs =>
    refine congrArg clauses (SortedSet.map_congr fun c hc => SortedSet.map_congr fun l hl => ?_)
    rw [Literal.rename, Literal.rename, h _ (mem_vars_clauses.mpr ⟨c, hc, l, hl, rfl⟩)]

theorem optimize_rename (hρ : Function.Injective ρ) (s : ClauseSet) (fallback recursive : Bool) :
    (s.rename ρ).optimize fallback recursive = (s.optimize fallback recursive).rename ρ := by
  rw [rename_eq hρ, rename_eq hρ]
  exact (LiteralSymmetry.ofInjective hρ).optimize_clauseSet id s fallback recursive

end ClauseSet

namespace DecisionTree

def rename (ρ : Variable → Variable) : DecisionTree → DecisionTree
  | leaf b => leaf b
  | branch v low high => branch (ρ v) (low.rename ρ) (high.rename ρ)

theorem carries_id (r : Reading) : Carries id r r := fun _ => Iff.rfl

theorem guard_rename (r : Reading) (v : Variable) (b : Bool) :
    Literal.guard r (ρ v) b = (Literal.guard r v b).rename ρ := by
  rw [Literal.guard, Literal.guard]
  split <;> rfl

theorem clauseSet_rename (hρ : Function.Injective ρ) (r : Reading) (t : DecisionTree) :
    (t.rename ρ).clauseSet r = (t.clauseSet r).rename ρ := by
  induction t with
  | leaf b => rfl
  | branch v low high ihl ihh =>
    rw [ClauseSet.rename_eq hρ] at ihl ihh ⊢
    exact clauseSet_branch_image (carries_id r) (guard_rename r v) ihl ihh

end DecisionTree

namespace Formula

theorem decisionTree_rename (hρ : Function.Injective ρ) (f : Formula) :
    (f.rename ρ).decisionTree = f.decisionTree.rename ρ := by
  induction f using decisionTree.induct with
  | case1 f h =>
    have hpivot : (f.rename ρ).pivot = none := by rw [pivot_rename, h, Option.map_none]
    rw [decisionTree_of_pivot_none hpivot, decisionTree_of_pivot_none h, eval_rename,
      DecisionTree.rename]
  | case2 f v h _ ihl ihh =>
    have hpivot : (f.rename ρ).pivot = some (ρ v) := by rw [pivot_rename, h, Option.map_some]
    rw [decisionTree_of_pivot_some hpivot, decisionTree_of_pivot_some h, substitute_rename hρ,
      substitute_rename hρ, ihl, ihh, DecisionTree.rename]

theorem normalForm_rename (hρ : Function.Injective ρ) (f : Formula) (r : Reading) :
    (f.rename ρ).normalForm r = (f.normalForm r).rename ρ := by
  rw [normalForm_eq_clauseSet, normalForm_eq_clauseSet, canonicalize_rename hρ,
    decisionTree_rename hρ, DecisionTree.clauseSet_rename hρ]

theorem minimalForm_rename (hρ : Function.Injective ρ) (f : Formula) (r : Reading) :
    (f.rename ρ).minimalForm r = (f.minimalForm r).rename ρ := by
  rw [minimalForm, minimalForm, normalForm_rename hρ, ClauseSet.optimize_rename hρ]

/-- Where a renaming keeps the variables of a formula apart, the normal and
minimal forms of the renamed formula are the renamed ones of the formula,
whatever becomes of the order of the names. -/
theorem forms_of_rename_eq_image {f : Formula} {ρ : Variable → Variable}
    (hρ : ∀ v ∈ f.vars, ∀ w ∈ f.vars, ρ v = ρ w → v = w) (r : Reading) :
    (f.rename ρ).normalForm r = (f.normalForm r).rename ρ ∧
      (f.rename ρ).minimalForm r = (f.minimalForm r).rename ρ := by
  obtain ⟨σ, hσ⟩ := exists_perm_extending hρ
  have hnormal : (f.normalForm r).rename ρ = (f.normalForm r).rename σ :=
    ClauseSet.rename_congr fun v hv => hσ v (vars_normalForm_subset f r v hv)
  have hminimal : (f.minimalForm r).rename ρ = (f.minimalForm r).rename σ :=
    ClauseSet.rename_congr fun v hv => hσ v (vars_minimalForm_subset f r v hv)
  rw [rename_congr hσ, hnormal, hminimal]
  exact ⟨normalForm_rename σ.injective f r, minimalForm_rename σ.injective f r⟩

def exchange (v : Variable) : Variable := if v = .p then .q else .p

def stacked : Formula :=
  .binary .and (.not (.not (.not (.var .q)))) (.binary .implies (.var .p) (.var .q))

theorem forms_of_rename_eq_image_exchange :
    (∀ v ∈ stacked.vars, ∀ w ∈ stacked.vars, exchange v = exchange w → v = w) ∧
      compare Variable.p Variable.q = .lt ∧
      compare (exchange .p) (exchange .q) = .gt ∧
      stacked.normalForm .conjunctive =
        .clauses (.ofList [{.negative .q}, .ofList [.negative .p, .positive .q]]) ∧
      (stacked.rename exchange).normalForm .conjunctive =
        .clauses (.ofList [{.negative .p}, .ofList [.positive .p, .negative .q]]) ∧
      (stacked.rename exchange).minimalForm .conjunctive =
        (stacked.minimalForm .conjunctive).rename exchange := by
  have hinj : ∀ v ∈ stacked.vars, ∀ w ∈ stacked.vars, exchange v = exchange w → v = w := by
    decide
  have hnormal : stacked.normalForm .conjunctive =
      .clauses (.ofList [{.negative .q}, .ofList [.negative .p, .positive .q]]) := by
    decide +kernel
  obtain ⟨himage, hminimal⟩ := forms_of_rename_eq_image hinj .conjunctive
  rw [hnormal] at himage
  exact ⟨hinj, by decide, by decide, hnormal, himage.trans (by decide), hminimal⟩

end Formula

end Propositional
