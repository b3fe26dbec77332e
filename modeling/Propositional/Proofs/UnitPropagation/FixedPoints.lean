import Propositional.Proofs.Formula.Valuation
import Propositional.Proofs.UnitPropagation.Rounds

/-!
# Results of propagation are fixed points

A run until nothing changes stops at a set that a round gives back, and such a
set is the result of every run from it, under every fallback. The sets on the
way have the same result as the first one, so a round may be taken in advance.
In a set that a round gives back nothing is left to drop and nothing to strike:
the variable of a unit clause is mentioned there only.
-/

set_option autoImplicit false

namespace Propositional

namespace UnitPropagation

variable {cs ds : SortedSet Clause} {fallback recursive : Bool}

theorem optimize_of_round_eq_error {reason : Collapse} (h : round cs = .error reason) :
    (ClauseSet.clauses cs).optimize fallback recursive = .const fallback := by
  rw [ClauseSet.optimize, run_of_round_eq_error h, Run.result]

theorem optimize_once (h : round cs = .ok ds) :
    (ClauseSet.clauses cs).optimize fallback false = .clauses ds := by
  rw [ClauseSet.optimize, run_of_stop h (.inl rfl), Run.result]

theorem optimize_once_eq_clauses_iff :
    (ClauseSet.clauses cs).optimize fallback false = .clauses ds ↔ round cs = .ok ds := by
  cases h : round cs with
  | error reason => simp [optimize_of_round_eq_error h]
  | ok es => simp [optimize_once h]

theorem optimize_of_round_eq_self (h : round cs = .ok cs) :
    (ClauseSet.clauses cs).optimize fallback recursive = .clauses cs := by
  rw [ClauseSet.optimize, run_of_stop h (.inr rfl), Run.result]

/-- A round may be taken in advance. -/
theorem optimize_of_round_eq_ok (h : round cs = .ok ds) :
    (ClauseSet.clauses ds).optimize fallback true =
      (ClauseSet.clauses cs).optimize fallback true := by
  by_cases hne : ds = cs
  · rw [hne]
  · rw [ClauseSet.optimize, ClauseSet.optimize, run_of_change h rfl hne, Run.result]

theorem round_eq_self_of_optimize
    (h : (ClauseSet.clauses cs).optimize fallback true = .clauses ds) : round ds = .ok ds := by
  revert h
  apply optimize_of_invariant (fun _ => True) (fun s => s = .clauses ds → round ds = .ok ds)
  · exact fun _ _ _ _ => trivial
  · intro es reason _ _ h
    cases h
  · intro es es' _ hround hstop h
    cases h
    obtain rfl : ds = es := by simpa using hstop
    exact hround
  · trivial

/-- A unit clause of a set that a round gives back shares its variable with no
other clause. -/
theorem var_ne_of_round_eq_self (h : round cs = .ok cs) {l : Literal} (hl : {l} ∈ cs)
    {c : Clause} (hc : c ∈ cs) (hne : c ≠ {l}) : ∀ k ∈ c, k.var ≠ l.var := by
  obtain ⟨-, hconsistent, -, hsame⟩ := round_eq_ok_iff.mp h
  have hunit : l ∈ units cs := mem_units.mpr hl
  intro k hk hvar
  rw [hsame] at hc
  rcases mem_residue.mp hc with ⟨u, hu, rfl⟩ | ⟨d, -, hdisj, rfl⟩
  · have hku : k = u := SortedSet.mem_singleton.mp hk
    subst hku
    rcases Literal.eq_or_eq_negate hvar with rfl | rfl
    · exact hne rfl
    · exact hconsistent l hunit hu
  · obtain ⟨hkd, hkept⟩ := SortedSet.mem_sdiff.mp hk
    rcases Literal.eq_or_eq_negate hvar with rfl | rfl
    · exact hdisj k hkd hunit
    · exact hkept (mem_opposites.mpr (l.negate_negate.symm ▸ hunit))

end UnitPropagation

namespace ClauseSet

open UnitPropagation

theorem optimize_optimize_once (s : ClauseSet) (fallback : Bool) :
    (s.optimize fallback false).optimize fallback true = s.optimize fallback true := by
  cases s with
  | const b => rfl
  | clauses cs =>
    cases h : round cs with
    | error reason => rw [optimize_of_round_eq_error h, optimize_of_round_eq_error h, optimize]
    | ok ds => rw [optimize_once h, optimize_of_round_eq_ok h]

theorem optimize_optimize (s : ClauseSet) (fallback other recursive : Bool) :
    (s.optimize fallback true).optimize other recursive = s.optimize fallback true := by
  cases s with
  | const b => rfl
  | clauses cs =>
    cases h : (clauses cs).optimize fallback true with
    | const b => rfl
    | clauses ds => exact optimize_of_round_eq_self (round_eq_self_of_optimize h)

/-- Propagating once before propagating to the end changes nothing, and neither
does any propagation after it. In the clauses that are left the variable of a
unit clause is mentioned there only. -/
theorem optimize_idempotent (s : ClauseSet) (fallback other recursive : Bool) :
    (s.optimize fallback false).optimize fallback true = s.optimize fallback true ∧
      (s.optimize fallback true).optimize other recursive = s.optimize fallback true ∧
      ∀ cs, s.optimize fallback true = clauses cs → ∀ l, {l} ∈ cs → ∀ c ∈ cs, c ≠ {l} →
        ∀ k ∈ c, k.var ≠ l.var := by
  refine ⟨optimize_optimize_once s fallback, optimize_optimize s fallback other recursive, ?_⟩
  intro cs h l hl c hc hne
  cases s with
  | const b => cases h
  | clauses ds => exact var_ne_of_round_eq_self (round_eq_self_of_optimize h) hl hc hne

def unitAndTautology : SortedSet Clause :=
  .ofList [{.positive .p}, .ofList [.negative .p, .positive .q, .negative .q]]

theorem optimize_idempotent_unitAndTautology :
    (clauses unitAndTautology).optimize false true =
        .clauses (.ofList [{.positive .p}, .ofList [.positive .q, .negative .q]]) ∧
      ((clauses unitAndTautology).optimize false true).optimize true false =
        (clauses unitAndTautology).optimize false true ∧
      (Literal.positive .q).var ≠ (Literal.positive .p).var := by
  have hresult : (clauses unitAndTautology).optimize false true =
      .clauses (.ofList [{.positive .p}, .ofList [.positive .q, .negative .q]]) := by
    decide +kernel
  obtain ⟨-, hagain, hunits⟩ := optimize_idempotent (clauses unitAndTautology) false true false
  refine ⟨hresult, hagain, ?_⟩
  exact hunits _ hresult (.positive .p) (by decide) (.ofList [.positive .q, .negative .q])
    (by decide) (by decide) (.positive .q) (by decide)

end ClauseSet

end Propositional
