import Propositional.Proofs.UnitPropagation.FixedPoints
import Propositional.Proofs.UnitPropagation.Soundness

/-!
# More clauses keep a collapse

A set refines another one when every clause of the other contains a clause of
it; a set with more clauses does. As long as the finer set does not collapse, a
round finds all units there that it finds in the coarser set, does not collapse
in the coarser set either, and leaves the one a refinement of the other. So the
finer run collapses no later than the coarser one, though perhaps for another
reason. Only an empty clause could keep a unit from being found, and a set with
an empty clause collapses as soon as it has a unit.
-/

set_option autoImplicit false

namespace Propositional

namespace UnitPropagation

variable {cs ds es : SortedSet Clause} {forced more : SortedSet Literal}
  {fallback recursive : Bool}

def Refines (ds cs : SortedSet Clause) : Prop := ∀ c ∈ cs, ∃ d ∈ ds, d ⊆ c

theorem refines_of_subset (h : cs ⊆ ds) : Refines ds cs :=
  fun c hc => ⟨c, h c hc, fun _ hl => hl⟩

theorem units_mono (h : cs ⊆ ds) : units cs ⊆ units ds :=
  fun _ hl => mem_units.mpr (h _ (mem_units.mp hl))

theorem opposites_mono (h : forced ⊆ more) : opposites forced ⊆ opposites more :=
  fun _ hl => mem_opposites.mpr (h _ (mem_opposites.mp hl))

theorem Consistent.mono (hc : Consistent more) (h : forced ⊆ more) : Consistent forced :=
  fun l hl hn => hc l (h l hl) (h _ hn)

theorem Refines.units_subset (h : Refines ds cs) (hempty : ∅ ∉ ds) : units cs ⊆ units ds := by
  intro l hl
  obtain ⟨d, hd, hdl⟩ := h {l} (mem_units.mp hl)
  have hne : d ≠ ∅ := fun he => hempty (he ▸ hd)
  have hunit : d = {l} := SortedSet.eq_singleton_of_subset hdl hne
  exact mem_units.mpr (hunit ▸ hd)

theorem Refines.empty_not_mem (h : Refines ds cs) (hempty : ∅ ∉ ds) : ∅ ∉ cs := by
  intro hcs
  obtain ⟨d, hd, hsub⟩ := h ∅ hcs
  have hd' : d = ∅ := SortedSet.eq_empty_iff.mpr fun l hl => SortedSet.not_mem_empty l (hsub l hl)
  exact hempty (hd' ▸ hd)

/-- What the finer set keeps of a clause is part of what the coarser one keeps,
and where it drops the clause a unit takes its place. -/
theorem refines_residue (h : Refines ds cs) (hsub : forced ⊆ more) (hc : Consistent more) :
    Refines (residue more ds) (residue forced cs) := by
  intro c hmem
  rcases mem_residue.mp hmem with ⟨l, hl, rfl⟩ | ⟨c, hcs, -, rfl⟩
  · exact ⟨{l}, unit_mem_residue (hsub l hl), fun _ hk => hk⟩
  obtain ⟨d, hd, hdc⟩ := h c hcs
  by_cases hdisj : d.Disjoint more
  · refine ⟨_, mem_residue.mpr (.inr ⟨d, hd, hdisj, rfl⟩), fun l hl => ?_⟩
    obtain ⟨hl, hkept⟩ := SortedSet.mem_sdiff.mp hl
    exact SortedSet.mem_sdiff.mpr ⟨hdc l hl, fun ho => hkept (opposites_mono hsub l ho)⟩
  · obtain ⟨l, hl, hm⟩ := SortedSet.not_disjoint_iff.mp hdisj
    refine ⟨{l}, unit_mem_residue hm, fun k hk => ?_⟩
    rw [SortedSet.mem_singleton.mp hk, SortedSet.mem_sdiff]
    exact ⟨hdc l hl, fun ho => hc l hm (hsub _ (mem_opposites.mp ho))⟩

theorem Refines.step (h : Refines ds cs) (hempty : ∅ ∉ ds) (hne : cs ≠ ∅)
    (hround : round ds = .ok es) : ∃ bs, round cs = .ok bs ∧ Refines es bs := by
  obtain ⟨-, hconsistent, -, hes⟩ := round_eq_ok_iff.mp hround
  have hunits := h.units_subset hempty
  have hrefines : Refines es (residue (units cs) cs) :=
    hes ▸ refines_residue h hunits hconsistent
  have hkept := hrefines.empty_not_mem (empty_not_mem_of_round_eq_ok hround hempty)
  exact ⟨_, round_eq_ok_iff.mpr ⟨hne, hconsistent.mono hunits, fun _ => hkept, rfl⟩, hrefines⟩

/-- A refinement without an empty clause collapses if the set does. -/
theorem Refines.optimize_eq_const (h : Refines ds cs) (hempty : ∅ ∉ ds) (hne : cs ≠ ∅)
    (hcs : (ClauseSet.clauses cs).optimize fallback recursive = .const fallback) :
    (ClauseSet.clauses ds).optimize fallback recursive = .const fallback := by
  -- The induction follows the coarser run; the finer set moves along with it.
  refine run_induction (motive := fun cs run => ∀ ds, Refines ds cs → ∅ ∉ ds → cs ≠ ∅ →
    run.result fallback = .const fallback →
    (ClauseSet.clauses ds).optimize fallback recursive = .const fallback)
    ?_ ?_ ?_ cs ds h hempty hne hcs
  · intro cs reason hround ds h hempty hne _
    cases hds : round ds with
    | error reason' => exact optimize_of_round_eq_error hds
    | ok es =>
      obtain ⟨bs, hbs, -⟩ := h.step hempty hne hds
      cases hround.symm.trans hbs
  · intro cs bs _ _ ds _ _ _ hresult
    cases hresult
  · intro cs bs hround hrec _ ih ds h hempty hne hresult
    cases hds : round ds with
    | error reason => exact optimize_of_round_eq_error hds
    | ok es =>
      obtain ⟨bs', hbs, hrefines⟩ := h.step hempty hne hds
      cases hround.symm.trans hbs
      subst hrec
      rw [← optimize_of_round_eq_ok hds]
      exact ih es hrefines (empty_not_mem_of_round_eq_ok hds hempty)
        (ne_empty_of_round_eq_ok hround) hresult

theorem units_ne_empty_of_optimize_eq_const (hne : cs ≠ ∅)
    (h : (ClauseSet.clauses cs).optimize fallback recursive = .const fallback) :
    units cs ≠ ∅ := by
  intro hunits
  rw [optimize_of_round_eq_self (round_of_units_eq_empty hne hunits)] at h
  cases h

theorem optimize_of_empty_mem (hempty : ∅ ∈ cs) (hunits : units cs ≠ ∅) :
    (ClauseSet.clauses cs).optimize fallback recursive = .const fallback := by
  cases hround : round cs with
  | error reason => exact optimize_of_round_eq_error hround
  | ok ds =>
    have hkept : ∅ ∈ residue (units cs) cs := by
      refine mem_residue.mpr (.inr ⟨∅, hempty, fun l hl _ => SortedSet.not_mem_empty l hl, ?_⟩)
      exact sdiff_opposites_eq_empty_iff.mpr fun l hl => absurd hl (SortedSet.not_mem_empty l)
    exact absurd hkept ((round_eq_ok_iff.mp hround).2.2.1 hunits)

end UnitPropagation

namespace ClauseSet

open UnitPropagation

variable {cs ds : SortedSet Clause} {fallback recursive : Bool}

/-- Adding clauses of any kind to a set that collapses gives a set that
collapses, in one round as in all. -/
theorem optimize_eq_const_of_subset (hne : cs ≠ ∅) (hsub : cs ⊆ ds)
    (h : (clauses cs).optimize fallback recursive = const fallback) :
    (clauses ds).optimize fallback recursive = const fallback := by
  by_cases hempty : ∅ ∈ ds
  · have hunits : units cs ≠ ∅ := units_ne_empty_of_optimize_eq_const hne h
    exact optimize_of_empty_mem hempty (SortedSet.ne_empty_of_subset (units_mono hsub) hunits)
  · exact (refines_of_subset hsub).optimize_eq_const hempty hne h

def oppositeAfterOne : SortedSet Clause :=
  .ofList [{.negative .q}, .ofList [.positive .p, .positive .q],
    .ofList [.negative .p, .positive .q]]

def emptiedAtOnce : SortedSet Clause :=
  oppositeAfterOne ∪ .ofList [{.positive .p}, .ofList [.positive .q, .negative .q]]

theorem optimize_eq_const_of_subset_emptiedAtOnce :
    oppositeAfterOne ≠ ∅ ∧ oppositeAfterOne ⊆ emptiedAtOnce ∧
      (clauses oppositeAfterOne).optimize true true = const true ∧
      (clauses emptiedAtOnce).optimize true true = const true := by
  have hne : oppositeAfterOne ≠ ∅ := by decide
  have hsub : oppositeAfterOne ⊆ emptiedAtOnce := by decide
  have hcollapse : (clauses oppositeAfterOne).optimize true true = const true := by
    decide +kernel
  exact ⟨hne, hsub, hcollapse, optimize_eq_const_of_subset hne hsub hcollapse⟩

end ClauseSet

end Propositional
