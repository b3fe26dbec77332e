import Propositional.Proofs.UnitPropagation.Rounds

/-!
# Unit propagation commutes with symmetries of the literals

A symmetry keeps different literals different and opposite literals opposite.
What a round looks at is told apart by these two relations alone: which clauses
are units, which literals clash, which clauses meet a forced literal and what
is struck from the rest. So a round of the image of a set collapses when the
round of the set does and gives the image of its result otherwise. The order of
the literals may change, and with it the literal that a contradiction names,
but not whether a run collapses nor the set that it ends with.
-/

set_option autoImplicit false

namespace Propositional

structure LiteralSymmetry where
  toFun : Literal → Literal
  injective : Function.Injective toFun
  map_negate : ∀ l, toFun l.negate = (toFun l).negate

namespace LiteralSymmetry

def negation : LiteralSymmetry :=
  ⟨Literal.negate, fun _ _ h => Literal.negate_inj.mp h, fun _ => rfl⟩

variable (σ : LiteralSymmetry)

def clause (c : Clause) : Clause := c.map σ.toFun

def clauses (cs : SortedSet Clause) : SortedSet Clause := cs.map σ.clause

variable {σ} {c d : Clause} {cs : SortedSet Clause} {l : Literal}

theorem clause_injective : Function.Injective σ.clause := SortedSet.map_injective σ.injective

theorem clauses_injective : Function.Injective σ.clauses := SortedSet.map_injective clause_injective

theorem mem_clause_iff {k : Literal} : k ∈ σ.clause c ↔ ∃ l ∈ c, σ.toFun l = k :=
  SortedSet.mem_map

theorem mem_clauses_iff : d ∈ σ.clauses cs ↔ ∃ c ∈ cs, σ.clause c = d := SortedSet.mem_map

theorem mem_clause : σ.toFun l ∈ σ.clause c ↔ l ∈ c := SortedSet.mem_map_of_injective σ.injective

theorem mem_clauses : σ.clause c ∈ σ.clauses cs ↔ c ∈ cs :=
  SortedSet.mem_map_of_injective clause_injective

theorem clause_eq_empty_iff : σ.clause c = ∅ ↔ c = ∅ := SortedSet.map_eq_empty_iff

theorem empty_mem_clauses : ∅ ∈ σ.clauses cs ↔ ∅ ∈ cs := mem_clauses (c := ∅)

theorem clause_eq_singleton_iff {k : Literal} :
    σ.clause c = {k} ↔ ∃ l, c = {l} ∧ σ.toFun l = k := by
  constructor
  · intro h
    obtain ⟨l, hl⟩ : ∃ l, l ∈ c := by
      apply SortedSet.exists_mem_of_ne_empty
      rintro rfl
      exact SortedSet.singleton_ne_empty k h.symm
    have hall : ∀ l' ∈ c, σ.toFun l' = k := by
      intro l' hl'
      rw [← SortedSet.mem_singleton, ← h]
      exact mem_clause.mpr hl'
    refine ⟨l, SortedSet.ext fun l' => ?_, hall l hl⟩
    rw [SortedSet.mem_singleton]
    constructor
    · exact fun hl' => σ.injective ((hall l' hl').trans (hall l hl).symm)
    · exact fun hl' => hl' ▸ hl
  · rintro ⟨l, rfl, rfl⟩
    rfl

end LiteralSymmetry

namespace UnitPropagation

open LiteralSymmetry

variable {σ : LiteralSymmetry} {cs ds es : SortedSet Clause} {forced : SortedSet Literal}

theorem units_clauses : units (σ.clauses cs) = σ.clause (units cs) := by
  apply SortedSet.ext
  intro k
  simp only [mem_units, mem_clauses_iff, mem_clause_iff, clause_eq_singleton_iff]
  constructor
  · rintro ⟨c, hc, l, rfl, hl⟩
    exact ⟨l, hc, hl⟩
  · rintro ⟨l, hl, hk⟩
    exact ⟨{l}, hl, l, rfl, hk⟩

theorem consistent_clause : Consistent (σ.clause forced) ↔ Consistent forced := by
  constructor
  · intro h l hl hn
    apply h (σ.toFun l) (mem_clause.mpr hl)
    rw [← σ.map_negate]
    exact mem_clause.mpr hn
  · intro h k hk hn
    obtain ⟨l, hl, rfl⟩ := mem_clause_iff.mp hk
    rw [← σ.map_negate] at hn
    exact h l hl (mem_clause.mp hn)

theorem opposites_clause : opposites (σ.clause forced) = σ.clause (opposites forced) := by
  apply SortedSet.ext
  intro k
  simp only [opposites, clause, SortedSet.mem_map]
  constructor
  · rintro ⟨_, ⟨l, hl, rfl⟩, rfl⟩
    exact ⟨l.negate, ⟨l, hl, rfl⟩, σ.map_negate l⟩
  · rintro ⟨_, ⟨l, hl, rfl⟩, rfl⟩
    exact ⟨σ.toFun l, ⟨l, hl, rfl⟩, (σ.map_negate l).symm⟩

theorem clause_sdiff_opposites (c : Clause) :
    σ.clause (c \ opposites forced) = σ.clause c \ opposites (σ.clause forced) := by
  rw [opposites_clause]
  exact SortedSet.map_sdiff σ.injective

theorem disjoint_clause {c : Clause} :
    (σ.clause c).Disjoint (σ.clause forced) ↔ c.Disjoint forced :=
  SortedSet.disjoint_map σ.injective

theorem residue_clauses :
    residue (σ.clause forced) (σ.clauses cs) = σ.clauses (residue forced cs) := by
  apply SortedSet.ext
  intro c
  rw [mem_residue, mem_clauses_iff]
  constructor
  · rintro (⟨k, hk, rfl⟩ | ⟨d, hd, hdisj, rfl⟩)
    · obtain ⟨l, hl, rfl⟩ := mem_clause_iff.mp hk
      exact ⟨{l}, unit_mem_residue hl, rfl⟩
    · obtain ⟨e, he, rfl⟩ := mem_clauses_iff.mp hd
      refine ⟨e \ opposites forced, ?_, clause_sdiff_opposites e⟩
      exact mem_residue.mpr (.inr ⟨e, he, disjoint_clause.mp hdisj, rfl⟩)
  · rintro ⟨d, hd, rfl⟩
    rcases mem_residue.mp hd with ⟨l, hl, rfl⟩ | ⟨e, he, hdisj, rfl⟩
    · exact .inl ⟨σ.toFun l, mem_clause.mpr hl, rfl⟩
    · exact .inr ⟨σ.clause e, mem_clauses.mpr he, disjoint_clause.mpr hdisj,
        (clause_sdiff_opposites e).symm⟩

/-- A round of the image is the image of the round. -/
theorem round_clauses_eq_ok_iff :
    round (σ.clauses cs) = .ok es ↔ ∃ ds, round cs = .ok ds ∧ σ.clauses ds = es := by
  have hcs : σ.clauses cs ≠ ∅ ↔ cs ≠ ∅ := not_congr SortedSet.map_eq_empty_iff
  have hunits : σ.clause (units cs) ≠ ∅ ↔ units cs ≠ ∅ := not_congr clause_eq_empty_iff
  simp only [round_eq_ok_iff, units_clauses, residue_clauses, consistent_clause, hcs, hunits,
    empty_mem_clauses]
  constructor
  · rintro ⟨hne, hcons, hempty, rfl⟩
    exact ⟨_, ⟨hne, hcons, hempty, rfl⟩, rfl⟩
  · rintro ⟨_, ⟨hne, hcons, hempty, rfl⟩, rfl⟩
    exact ⟨hne, hcons, hempty, rfl⟩

theorem exists_round_clauses_eq_error {reason : Collapse} (h : round cs = .error reason) :
    ∃ reason', round (σ.clauses cs) = .error reason' := by
  cases himage : round (σ.clauses cs) with
  | error reason' => exact ⟨reason', rfl⟩
  | ok es =>
    obtain ⟨ds, hds, -⟩ := round_clauses_eq_ok_iff.mp himage
    rw [h] at hds
    cases hds

def Run.final? : Run → Option (SortedSet Clause)
  | collapsed _ => none
  | settled _ after => some after
  | absorbed _ _ rest => rest.final?

theorem Run.result_eq (fallback : Bool) (run : Run) :
    run.result fallback = run.final?.elim (.const fallback) .clauses := by
  induction run with
  | collapsed reason => rfl
  | settled before after => rfl
  | absorbed before after rest ih => exact ih

theorem final?_run_clauses (recursive : Bool) (cs : SortedSet Clause) :
    (run recursive (σ.clauses cs)).final? = (run recursive cs).final?.map σ.clauses := by
  apply run_induction
    (motive := fun cs r => (run recursive (σ.clauses cs)).final? = r.final?.map σ.clauses)
  · intro cs reason hround
    obtain ⟨reason', himage⟩ := exists_round_clauses_eq_error (σ := σ) hround
    rw [run_of_round_eq_error himage]
    rfl
  · intro cs ds hround hstop
    have himage : round (σ.clauses cs) = .ok (σ.clauses ds) :=
      round_clauses_eq_ok_iff.mpr ⟨ds, hround, rfl⟩
    rw [run_of_stop himage (hstop.imp_right (congrArg σ.clauses))]
    rfl
  · intro cs ds hround hrec hne ih
    have himage : round (σ.clauses cs) = .ok (σ.clauses ds) :=
      round_clauses_eq_ok_iff.mpr ⟨ds, hround, rfl⟩
    rw [run_of_change himage hrec (clauses_injective.ne hne)]
    exact ih

end UnitPropagation

namespace LiteralSymmetry

def clauseSet (σ : LiteralSymmetry) (t : Bool → Bool) : ClauseSet → ClauseSet
  | .const b => .const (t b)
  | .clauses cs => .clauses (σ.clauses cs)

theorem optimize_clauseSet (σ : LiteralSymmetry) (t : Bool → Bool) (s : ClauseSet)
    (fallback recursive : Bool) :
    (σ.clauseSet t s).optimize (t fallback) recursive =
      σ.clauseSet t (s.optimize fallback recursive) := by
  cases s with
  | const b => rfl
  | clauses cs =>
    rw [clauseSet, ClauseSet.optimize, ClauseSet.optimize, UnitPropagation.Run.result_eq,
      UnitPropagation.Run.result_eq, UnitPropagation.final?_run_clauses]
    cases (UnitPropagation.run recursive cs).final? <;> rfl

end LiteralSymmetry

end Propositional
