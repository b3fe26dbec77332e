import Propositional.Proofs.ClauseSet.Nesting
import Propositional.Proofs.NormalForm.Decomposition
import Propositional.Proofs.UnitPropagation.Monotonicity

/-!
# Normal and minimal forms are rebuilt without loss

No clause of a normal form opposes itself, and if two of its unit clauses were
opposite, propagation would collapse and the formula be constant. Propagating to
the end keeps a set well-formed, since clauses only shrink and the last round
finds no opposite units. So a formula rebuilt from a normal or a minimal form is
the nest of its clauses, mentions the variables of the set and determines it.
-/

set_option autoImplicit false

namespace Propositional

open UnitPropagation (Consistent round units)

namespace UnitPropagation

variable {cs ds : SortedSet Clause} {fallback recursive : Bool}

theorem consistent_of_round_eq_ok (h : round cs = .ok ds) (hcs : ∀ c ∈ cs, Consistent c) :
    ∀ c ∈ ds, Consistent c := by
  intro c hc
  rw [eq_residue_of_round_eq_ok h] at hc
  rcases mem_residue.mp hc with ⟨l, -, rfl⟩ | ⟨d, hd, -, rfl⟩
  · intro k hk hn
    rw [SortedSet.mem_singleton] at hk hn
    exact k.negate_ne (hn.trans hk.symm)
  · exact (hcs d hd).mono fun l hl => (SortedSet.mem_sdiff.mp hl).1

theorem consistent_optimize (hcs : ∀ c ∈ cs, Consistent c)
    (h : (ClauseSet.clauses cs).optimize fallback recursive = .clauses ds) :
    ∀ c ∈ ds, Consistent c := by
  revert h
  apply optimize_of_invariant (fun cs => ∀ c ∈ cs, Consistent c)
    (fun s => s = .clauses ds → ∀ c ∈ ds, Consistent c)
  · exact fun es es' hes hround => consistent_of_round_eq_ok hround hes
  · intro es reason _ _ h
    cases h
  · intro es es' hes hround _ h
    exact ClauseSet.clauses.inj h ▸ consistent_of_round_eq_ok hround hes
  · exact hcs

/-- Opposite units would have made the first round collapse. -/
theorem units_consistent_of_optimize
    (h : (ClauseSet.clauses cs).optimize fallback recursive = .clauses ds) :
    Consistent (units cs) := by
  cases hround : round cs with
  | error reason =>
    rw [optimize_of_round_eq_error hround] at h
    cases h
  | ok es => exact (round_eq_ok_iff.mp hround).2.1

end UnitPropagation

namespace ClauseSet

open UnitPropagation

variable {cs ds : SortedSet Clause} {fallback : Bool}

theorem WellFormed.optimize (hcs : WellFormed cs)
    (h : (clauses cs).optimize fallback true = clauses ds) : WellFormed ds := by
  obtain ⟨hne, hempty⟩ : (clauses ds).Canonical :=
    h ▸ canonical_optimize fallback true ⟨hcs.ne_empty, hcs.not_mem_empty⟩
  exact ⟨hne, hempty, consistent_optimize hcs.consistent h,
    (round_eq_ok_iff.mp (round_eq_self_of_optimize h)).2.1⟩

end ClauseSet

namespace Formula

variable {f : Formula} {r : Reading} {cs : SortedSet Clause}

theorem wellFormed_normalForm (h : f.normalForm r = .clauses cs) : ClauseSet.WellFormed cs := by
  obtain ⟨hne, hempty⟩ : (ClauseSet.clauses cs).Canonical := h ▸ canonical_normalForm f r
  obtain ⟨ds, hds⟩ := exists_minimalForm_eq_clauses h
  rw [minimalForm, h] at hds
  exact ⟨hne, hempty, (exclusive_normalForm h).consistent,
    UnitPropagation.units_consistent_of_optimize hds⟩

theorem wellFormed_minimalForm (h : f.minimalForm r = .clauses cs) :
    ClauseSet.WellFormed cs := by
  rw [minimalForm] at h
  cases hnormal : f.normalForm r with
  | const b =>
    rw [hnormal] at h
    cases h
  | clauses ds =>
    rw [hnormal] at h
    exact (wellFormed_normalForm hnormal).optimize h

end Formula

namespace ClauseSet

/-- The formula rebuilt from a well-formed set is its nested formula, without any
simplification; it mentions exactly the variables of the set, and no other
well-formed set is rebuilt to it. The clauses of normal and minimal forms are
well-formed. -/
theorem toFormula_lossless :
    (∀ (r : Reading) (cs : SortedSet Clause), WellFormed cs →
      (clauses cs).toFormula r = nested r cs ∧
      ((clauses cs).toFormula r).vars = (clauses cs).vars ∧
      ∀ ds, WellFormed ds → (clauses cs).toFormula r = (clauses ds).toFormula r → cs = ds) ∧
    ∀ (f : Formula) (r : Reading) (cs : SortedSet Clause),
      f.normalForm r = clauses cs ∨ f.minimalForm r = clauses cs → WellFormed cs := by
  constructor
  · intro r cs hcs
    refine ⟨hcs.toFormula_eq_nested r, ?_, fun ds hds h => ?_⟩
    · rw [hcs.toFormula_eq_nested r]
      exact SortedSet.ext fun v => mem_vars_nested
    · rw [hcs.toFormula_eq_nested r, hds.toFormula_eq_nested r] at h
      exact hcs.nested_injective hds h
  · rintro f r cs (h | h)
    · exact Formula.wellFormed_normalForm h
    · exact Formula.wellFormed_minimalForm h

def unitsAndPair : SortedSet Clause :=
  .ofList [{.negative .p}, {.positive .q}, .ofList [.positive .p, .negative .r]]

theorem toFormula_lossless_unitsAndPair :
    WellFormed unitsAndPair ∧
      (clauses unitsAndPair).toFormula .conjunctive =
        .binary .and (.binary .and (.binary .or (.var .p) (.not (.var .r))) (.not (.var .p)))
          (.var .q) ∧
      ((clauses unitsAndPair).toFormula .conjunctive).vars = .ofList [.p, .q, .r] ∧
      Formula.implication.normalForm .disjunctive = clauses Formula.implicationCases ∧
      (clauses unitsAndPair).toFormula .conjunctive ≠
        (clauses Formula.implicationCases).toFormula .conjunctive := by
  have hunits : WellFormed unitsAndPair := ⟨by decide, by decide, by decide, by decide⟩
  have hnormal : Formula.implication.normalForm .disjunctive = clauses Formula.implicationCases := by
    decide +kernel
  have hcases : WellFormed Formula.implicationCases :=
    toFormula_lossless.2 _ _ _ (.inl hnormal)
  obtain ⟨hnested, hvars, hinjective⟩ := toFormula_lossless.1 .conjunctive unitsAndPair hunits
  refine ⟨hunits, ?_, ?_, hnormal, ?_⟩
  · rw [hnested]
    decide
  · rw [hvars]
    decide
  · intro h
    exact absurd (hinjective _ hcases h) (by decide)

end ClauseSet

end Propositional
