import Propositional.UnitPropagation

/-!
# Rounds of unit propagation as residues

The residue of a set of clauses under forced literals consists of those
literals as unit clauses and of what is left of the clauses that hold none of
them. A round that does not collapse is the residue under the literals of the
unit clauses. Residues compose: under more forced literals that do not clash,
the residue of a residue is the residue of the original set, so a run of rounds
never loses sight of the set it began with.
-/

set_option autoImplicit false

namespace Propositional.UnitPropagation

def Consistent (forced : SortedSet Literal) : Prop := ∀ l ∈ forced, l.negate ∉ forced

instance (forced : SortedSet Literal) : Decidable (Consistent forced) :=
  inferInstanceAs (Decidable (∀ l ∈ forced, l.negate ∉ forced))

variable {forced more : SortedSet Literal} {cs ds : SortedSet Clause}

theorem sdiff_opposites_empty (c : Clause) : c \ opposites ∅ = c := by
  apply SortedSet.ext
  intro l
  simp [mem_opposites]

theorem sdiff_opposites_eq_empty_iff {c : Clause} :
    c \ opposites forced = ∅ ↔ c ⊆ opposites forced := by
  rw [SortedSet.eq_empty_iff]
  constructor
  · intro h l hl
    simpa [hl] using h l
  · intro h l hl
    have hl' := SortedSet.mem_sdiff.mp hl
    exact hl'.2 (h l hl'.1)

theorem sdiff_opposites_eq_singleton_iff {c : Clause} {l : Literal} :
    c \ opposites forced = {l} ↔
      l ∈ c ∧ l ∉ opposites forced ∧ ∀ k ∈ c, k ≠ l → k ∈ opposites forced := by
  constructor
  · intro h
    have hleft : ∀ k, k ∈ c ∧ k ∉ opposites forced ↔ k = l := by
      intro k
      rw [← SortedSet.mem_sdiff, h, SortedSet.mem_singleton]
    obtain ⟨hl, hkept⟩ := (hleft l).mpr rfl
    refine ⟨hl, hkept, fun k hk hne => ?_⟩
    apply Classical.byContradiction
    intro ho
    exact hne ((hleft k).mp ⟨hk, ho⟩)
  · rintro ⟨hl, hkept, hstruck⟩
    apply SortedSet.ext
    intro k
    rw [SortedSet.mem_sdiff, SortedSet.mem_singleton]
    constructor
    · rintro ⟨hk, ho⟩
      apply Classical.byContradiction
      intro hne
      exact ho (hstruck k hk hne)
    · rintro rfl
      exact ⟨hl, hkept⟩

theorem residue_empty (cs : SortedSet Clause) : residue ∅ cs = cs := by
  apply SortedSet.ext
  intro c
  simp [mem_residue, SortedSet.Disjoint, sdiff_opposites_empty]

theorem sdiff_sdiff_opposites (h : forced ⊆ more) (c : Clause) :
    (c \ opposites forced) \ opposites more = c \ opposites more := by
  apply SortedSet.ext
  intro l
  simp only [SortedSet.mem_sdiff, mem_opposites, and_assoc]
  exact and_congr_right fun _ => and_iff_right_of_imp fun hl hf => hl (h _ hf)

/-- Striking opposites of forced literals takes no forced literal away. -/
theorem disjoint_sdiff_opposites (h : forced ⊆ more) (hc : Consistent more) {c : Clause} :
    (c \ opposites forced).Disjoint more ↔ c.Disjoint more := by
  constructor
  · intro hd l hl hm
    apply hd l _ hm
    rw [SortedSet.mem_sdiff, mem_opposites]
    exact ⟨hl, fun hf => hc l hm (h _ hf)⟩
  · intro hd l hl
    exact hd l (SortedSet.mem_sdiff.mp hl).1

/-- Under more literals that do not clash the first residue is not noticed. -/
theorem residue_residue (h : forced ⊆ more) (hc : Consistent more) :
    residue more (residue forced cs) = residue more cs := by
  apply SortedSet.ext
  intro c
  rw [mem_residue, mem_residue]
  apply or_congr_right
  constructor
  · rintro ⟨d, hd, hdisj, rfl⟩
    rcases mem_residue.mp hd with ⟨l, hl, rfl⟩ | ⟨e, he, -, rfl⟩
    · exact absurd (h l hl) (hdisj l (SortedSet.mem_singleton_self l))
    · exact ⟨e, he, (disjoint_sdiff_opposites h hc).mp hdisj, (sdiff_sdiff_opposites h e).symm⟩
  · rintro ⟨d, hd, hdisj, rfl⟩
    have hkept : d \ opposites forced ∈ residue forced cs :=
      mem_residue.mpr (.inr ⟨d, hd, hdisj.mono h, rfl⟩)
    exact ⟨_, hkept, (disjoint_sdiff_opposites h hc).mpr hdisj, sdiff_sdiff_opposites h d⟩

theorem clash?_eq_none_iff : clash? forced = none ↔ Consistent forced := by
  rw [clash?, List.find?_eq_none]
  simp only [decide_eq_true_eq, mem_opposites]
  rfl

theorem clash?_eq_some {l : Literal} (h : clash? forced = some l) :
    l ∈ forced ∧ l.negate ∈ forced :=
  ⟨List.mem_of_find?_eq_some h, mem_opposites.mp (by simpa using List.find?_some h)⟩

theorem empty_mem_residue_iff : ∅ ∈ residue forced cs ↔ ∅ ∈ remainders forced cs := by
  rw [mem_residue, mem_remainders, or_iff_right]
  rintro ⟨l, -, hl⟩
  exact SortedSet.singleton_ne_empty l hl

theorem round_of_units_eq_empty (hne : cs ≠ ∅) (h : units cs = ∅) : round cs = .ok cs := by
  rw [round, if_neg hne, if_pos h]

theorem round_eq_ok_iff :
    round cs = .ok ds ↔ cs ≠ ∅ ∧ Consistent (units cs) ∧
      (units cs ≠ ∅ → ∅ ∉ residue (units cs) cs) ∧ ds = residue (units cs) cs := by
  rw [← clash?_eq_none_iff, empty_mem_residue_iff]
  by_cases hcs : cs = ∅
  · simp [hcs, round]
  by_cases hu : units cs = ∅
  · have hclash : clash? (∅ : SortedSet Literal) = none := rfl
    rw [round_of_units_eq_empty hcs hu]
    simp [hcs, hu, hclash, residue_empty, eq_comm]
  rw [round_of_units_ne_empty hcs hu]
  cases hclash : clash? (units cs) with
  | some l => simp
  | none =>
    by_cases he : ∅ ∈ remainders (units cs) cs
    · simp [hu, he]
    · simp [hcs, he, eq_comm]

theorem eq_residue_of_round_eq_ok (h : round cs = .ok ds) : ds = residue (units cs) cs :=
  (round_eq_ok_iff.mp h).2.2.2

/-- A collapse and what in the set caused it. -/
theorem cause_of_round_eq_error {reason : Collapse} (h : round cs = .error reason) :
    (reason = .noClauses ∧ cs = ∅) ∨
      (∃ l, reason = .contradiction l ∧ clash? (units cs) = some l) ∨
      (reason = .emptiedClause ∧ Consistent (units cs) ∧
        ∃ c ∈ cs, c.Disjoint (units cs) ∧ c ⊆ opposites (units cs)) := by
  by_cases hcs : cs = ∅
  · left
    simpa [hcs, round, eq_comm] using h
  by_cases hu : units cs = ∅
  · simp [round_of_units_eq_empty hcs hu] at h
  rw [round_of_units_ne_empty hcs hu] at h
  cases hclash : clash? (units cs) with
  | some l =>
    have hreason : reason = .contradiction l := by simpa [hclash, eq_comm] using h
    exact .inr (.inl ⟨l, hreason, rfl⟩)
  | none =>
    by_cases he : ∅ ∈ remainders (units cs) cs
    · have hreason : reason = .emptiedClause := by simpa [hclash, he, eq_comm] using h
      obtain ⟨c, hc, hdisj, hempty⟩ := mem_remainders.mp he
      have hsub := sdiff_opposites_eq_empty_iff.mp hempty
      exact .inr (.inr ⟨hreason, clash?_eq_none_iff.mp hclash, c, hc, hdisj, hsub⟩)
    · simp [hclash, he] at h

/-- A round finds no clauses only before it begins. -/
theorem round_eq_noClauses_iff : round cs = .error .noClauses ↔ cs = ∅ := by
  constructor
  · intro h
    rcases cause_of_round_eq_error h with ⟨-, hcs⟩ | ⟨l, hl, -⟩ | ⟨hreason, -⟩
    · exact hcs
    · cases hl
    · cases hreason
  · rintro rfl
    rfl

section Run

variable {recursive : Bool}

theorem run_of_round_eq_error {reason : Collapse} (h : round cs = .error reason) :
    run recursive cs = .collapsed reason := by
  rw [run]
  split <;> simp_all

theorem run_of_stop (h : round cs = .ok ds) (hstop : recursive = false ∨ ds = cs) :
    run recursive cs = .settled cs ds := by
  rw [run]
  split <;> simp_all

theorem run_of_change (h : round cs = .ok ds) (hrec : recursive = true) (hne : ds ≠ cs) :
    run recursive cs = .absorbed cs ds (run recursive ds) := by
  rw [run]
  split <;> simp_all

end Run

/-- What holds of a collapse, of a last round and, if it holds of the run that
follows, of a round before it, holds of every run. -/
theorem run_induction {recursive : Bool} {motive : SortedSet Clause → Run → Prop}
    (collapsed : ∀ cs reason, round cs = .error reason → motive cs (.collapsed reason))
    (settled : ∀ cs ds, round cs = .ok ds → recursive = false ∨ ds = cs →
      motive cs (.settled cs ds))
    (absorbed : ∀ cs ds, round cs = .ok ds → recursive = true → ds ≠ cs →
      motive ds (run recursive ds) → motive cs (.absorbed cs ds (run recursive ds)))
    (cs : SortedSet Clause) : motive cs (run recursive cs) := by
  fun_induction run recursive cs with
  | case1 cs reason h => exact collapsed cs reason h
  | case2 cs ds h hstop => exact settled cs ds h hstop
  | case3 cs ds h hgo _ ih =>
    have hrec : recursive = true := by simpa using (not_or.mp hgo).1
    exact absorbed cs ds h hrec (not_or.mp hgo).2 ih

/-- An invariant of the rounds holds of the set before the last round, which
collapses or is the one that a run stops after. -/
theorem optimize_of_invariant {fallback recursive : Bool} (inv : SortedSet Clause → Prop)
    (goal : ClauseSet → Prop)
    (step : ∀ cs ds, inv cs → round cs = .ok ds → inv ds)
    (collapse : ∀ cs reason, inv cs → round cs = .error reason → goal (.const fallback))
    (stop : ∀ cs ds, inv cs → round cs = .ok ds → recursive = false ∨ ds = cs →
      goal (.clauses ds))
    (h : inv cs) : goal ((ClauseSet.clauses cs).optimize fallback recursive) := by
  refine run_induction (motive := fun cs run => inv cs → goal (run.result fallback)) ?_ ?_ ?_ cs h
  · intro cs reason hround hinv
    exact collapse cs reason hinv hround
  · intro cs ds hround hstop hinv
    exact stop cs ds hinv hround hstop
  · intro cs ds hround _ _ ih hinv
    exact ih (step cs ds hinv hround)

end Propositional.UnitPropagation
