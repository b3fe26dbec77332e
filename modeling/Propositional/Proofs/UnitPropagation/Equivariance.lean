import Mathlib.Logic.Equiv.Basic
import Propositional.Proofs.UnitPropagation.Closure
import Propositional.Proofs.UnitPropagation.Symmetry

/-!
# Propagation under renamings with turned polarities

A function of the literals that keeps different literals different and opposite
literals opposite renames the variables, and turns the polarity of the literals
of some of them round. Such a function may bring the literals and the clauses
into any other order. Propagation in the image of a set, by one round or to the
end, still gives the image of what it gives in the set.
-/

set_option autoImplicit false

namespace Propositional

namespace Literal

def relabel (ρ : Variable → Variable) (turned : Variable → Bool) (l : Literal) : Literal :=
  ⟨ρ l.var, turned l.var ^^ l.negated⟩

variable {ρ : Variable → Variable} {turned : Variable → Bool}

theorem relabel_negate (l : Literal) : l.negate.relabel ρ turned = (l.relabel ρ turned).negate := by
  simp [relabel, negate]

theorem relabel_injective (hρ : Function.Injective ρ) : Function.Injective (relabel ρ turned) := by
  intro l k h
  obtain ⟨hvar, hnegated⟩ := Literal.mk.inj h
  have hv : l.var = k.var := hρ hvar
  rw [hv] at hnegated
  have hn : l.negated = k.negated := by simpa using hnegated
  cases l
  cases k
  cases hv
  cases hn
  rfl

/-- A literal is the positive one of its variable or the opposite of it. -/
theorem eq_positive_or_negate (l : Literal) : l = positive l.var ∨ l = (positive l.var).negate :=
  eq_or_eq_negate rfl

end Literal

namespace LiteralSymmetry

/-- A symmetry is known from the images of the positive literals. -/
theorem eq_relabel (σ : LiteralSymmetry) (l : Literal) :
    σ.toFun l = l.relabel (fun v => (σ.toFun (.positive v)).var)
      (fun v => (σ.toFun (.positive v)).negated) := by
  rcases l.eq_positive_or_negate with h | h
  · rw [h, Literal.relabel]
    simp [Literal.positive]
  · rw [h, Literal.relabel_negate, σ.map_negate, Literal.negate_inj, Literal.relabel]
    simp [Literal.positive]

theorem var_injective (σ : LiteralSymmetry) :
    Function.Injective fun v => (σ.toFun (.positive v)).var := by
  intro v w h
  rcases Literal.eq_or_eq_negate h with heq | hopp
  · exact congrArg Literal.var (σ.injective heq)
  · rw [← σ.map_negate] at hopp
    exact congrArg Literal.var (σ.injective hopp)

end LiteralSymmetry

namespace ClauseSet

open UnitPropagation (chain)

def mapLiterals (σ : Literal → Literal) : ClauseSet → ClauseSet
  | const b => const b
  | clauses cs => clauses (cs.map fun c => c.map σ)

theorem mapLiterals_eq (σ : LiteralSymmetry) (s : ClauseSet) :
    s.mapLiterals σ.toFun = σ.clauseSet id s := by
  cases s <;> rfl

/-- A function of the literals that keeps different ones different and opposite
ones opposite is a renaming with some polarities turned round, and propagation
takes the image of every set to the image of its result. -/
theorem optimize_mapLiterals {σ : Literal → Literal} (hinjective : Function.Injective σ)
    (hnegate : ∀ l, σ l.negate = (σ l).negate) :
    (∃ ρ turned, Function.Injective ρ ∧ ∀ l, σ l = l.relabel ρ turned) ∧
      ∀ (s : ClauseSet) (fallback recursive : Bool),
        (s.mapLiterals σ).optimize fallback recursive =
          (s.optimize fallback recursive).mapLiterals σ := by
  let symmetry : LiteralSymmetry := ⟨σ, hinjective, hnegate⟩
  refine ⟨⟨_, _, symmetry.var_injective, symmetry.eq_relabel⟩, fun s fallback recursive => ?_⟩
  have himage : ∀ s : ClauseSet, s.mapLiterals σ = symmetry.clauseSet id s :=
    mapLiterals_eq symmetry
  rw [himage, himage]
  exact symmetry.optimize_clauseSet id s fallback recursive

def exchangeTurned : Literal → Literal :=
  .relabel (Equiv.swap .p .q) (· == .p)

theorem optimize_mapLiterals_exchangeTurned :
    Function.Injective exchangeTurned ∧
      (∀ l, exchangeTurned l.negate = (exchangeTurned l).negate) ∧
      compare (Literal.positive .p) (.positive .q) = .lt ∧
      compare (exchangeTurned (.positive .p)) (exchangeTurned (.positive .q)) = .gt ∧
      (clauses chain).mapLiterals exchangeTurned =
        clauses (.ofList [{.negative .q}, .ofList [.positive .p, .positive .q],
          .ofList [.negative .p, .negative .q]]) ∧
      ((clauses chain).mapLiterals exchangeTurned).optimize false true =
        clauses (.ofList [{.positive .p}, {.negative .q}]) := by
  have hinjective : Function.Injective exchangeTurned :=
    Literal.relabel_injective (Equiv.injective _)
  have hnegate : ∀ l, exchangeTurned l.negate = (exchangeTurned l).negate :=
    fun l => l.relabel_negate
  have hresult : (clauses chain).optimize false true =
      clauses (.ofList [{.positive .p}, {.positive .q}]) := by
    decide +kernel
  refine ⟨hinjective, hnegate, by decide, by decide, by decide, ?_⟩
  rw [(optimize_mapLiterals hinjective hnegate).2, hresult]
  decide

end ClauseSet

end Propositional
