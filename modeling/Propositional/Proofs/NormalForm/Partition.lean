import Propositional.Proofs.DecisionTree.Branching
import Propositional.Proofs.NormalForm.Meaning

/-!
# The clauses of both normal forms partition the assignments

Two clauses of a normal form oppose each other, so an assignment can make all
literals of at most one of them absorbing. It does so for one exactly when the
formula has the absorbing value of the reading, and the two readings have
opposite absorbing values. So every assignment of the variables singles out one
clause of the two forms together. Each clause is singled out by some
assignment, because it does not oppose itself, and without that clause the set
has the other value there.
-/

set_option autoImplicit false

namespace Propositional

open UnitPropagation (Consistent)

namespace Clause

def values (c : Clause) (r : Reading) (v : Variable) : Bool :=
  if .positive v ∈ c then r.absorbing else r.identity

theorem decides_values {c : Clause} (r : Reading) (hc : Consistent c) :
    Decides c r (values c r) := by
  rintro ⟨v, negated⟩ hl
  cases negated with
  | false => exact if_pos hl
  | true =>
    have hpos : Literal.positive v ∉ c := hc _ hl
    have hvalue : values c r v = r.identity := if_neg hpos
    rw [Literal.eval, hvalue]
    rfl

theorem decides_congr {c : Clause} {r : Reading} {value value' : Variable → Bool}
    (h : ∀ l ∈ c, value l.var = value' l.var) : Decides c r value ↔ Decides c r value' := by
  refine forall₂_congr fun l hl => ?_
  rw [Literal.eval, Literal.eval, h l hl]

/-- A clause that does not oppose itself decides under some assignment. -/
theorem exists_over_decides {c : Clause} {vars : SortedSet Variable} (r : Reading)
    (hc : Consistent c) (hvars : ∀ l ∈ c, l.var ∈ vars) :
    ∃ env : Assignment, env.Over vars ∧ Decides c r env.value := by
  refine ⟨.tabulate vars (values c r), Assignment.tabulate_over vars _, ?_⟩
  rw [decides_congr fun l hl => Assignment.value_tabulate (hvars l hl)]
  exact decides_values r hc

end Clause

namespace ClauseSet

theorem vars_mono {cs ds : SortedSet Clause} (h : cs ⊆ ds) :
    (clauses cs).vars ⊆ (clauses ds).vars := by
  intro v hv
  obtain ⟨c, hc, hcv⟩ := mem_vars_clauses.mp hv
  exact mem_vars_clauses.mpr ⟨c, h c hc, hcv⟩

/-- Without the one clause that decides, nothing does. -/
theorem Exclusive.not_decided_erase {cs : SortedSet Clause} {c : Clause} {r : Reading}
    {value : Variable → Bool} (h : Exclusive cs) (hc : c ∈ cs)
    (hdec : Clause.Decides c r value) : ¬Decided (cs.erase c) r value := by
  rintro ⟨d, hd, hdv⟩
  obtain ⟨hne, hd⟩ := SortedSet.mem_erase.mp hd
  exact hne (h.eq_of_decides hd hc hdv hdec)

end ClauseSet

namespace Formula

variable {f : Formula} {r : Reading} {cs : SortedSet Clause} {env : Assignment}

theorem exclusive_normalForm (h : f.normalForm r = .clauses cs) : ClauseSet.Exclusive cs := by
  rw [normalForm_eq_clauseSet] at h
  exact DecisionTree.exclusive_clauseSet (readOnce_decisionTree _) h

theorem mem_vars_of_normalForm (h : f.normalForm r = .clauses cs) {c : Clause} (hc : c ∈ cs)
    {l : Literal} (hl : l ∈ c) : l.var ∈ f.vars := by
  apply vars_normalForm_subset f r
  rw [h]
  exact ClauseSet.mem_vars_clauses.mpr ⟨c, hc, l, hl, rfl⟩

theorem decided_normalForm_iff (h : f.normalForm r = .clauses cs) (value : Variable → Bool) :
    ClauseSet.Decided cs r value ↔ f.eval value = r.absorbing := by
  rw [← eval_normalForm f r value, h, ClauseSet.eval_clauses_eq_absorbing_iff]

/-- Under an assignment to the variables a clause decides if its literals,
looked up, have the absorbing value. -/
theorem decides_iff_of_normalForm (h : f.normalForm r = .clauses cs) (henv : env.Covers f.vars)
    {c : Clause} (hc : c ∈ cs) :
    (∀ l ∈ c, l.eval? env = some r.absorbing) ↔ Clause.Decides c r env.value := by
  refine forall₂_congr fun l hl => ?_
  rw [Literal.eval?_eq_some_iff]
  exact and_iff_right (henv _ (mem_vars_of_normalForm h hc hl))

theorem existsUnique_absorbing_clause (h : f.normalForm r = .clauses cs) (henv : env.Covers f.vars)
    (heval : f.eval env.value = r.absorbing) :
    ∃! c, c ∈ cs ∧ ∀ l ∈ c, l.eval? env = some r.absorbing := by
  obtain ⟨c, hc, hdec⟩ := (decided_normalForm_iff h env.value).mpr heval
  refine ⟨c, ⟨hc, (decides_iff_of_normalForm h henv hc).mpr hdec⟩, ?_⟩
  rintro d ⟨hd, hlits⟩
  have hdd := (decides_iff_of_normalForm h henv hd).mp hlits
  exact (exclusive_normalForm h).eq_of_decides hd hc hdd hdec

theorem not_exists_absorbing_clause (h : f.normalForm r = .clauses cs) (henv : env.Covers f.vars)
    (heval : f.eval env.value ≠ r.absorbing) :
    ¬∃ c ∈ cs, ∀ l ∈ c, l.eval? env = some r.absorbing := by
  rintro ⟨c, hc, hlits⟩
  have hdec := (decides_iff_of_normalForm h henv hc).mp hlits
  exact heval ((decided_normalForm_iff h env.value).mp ⟨c, hc, hdec⟩)

/-- Some assignment makes the set without a clause lose its value. -/
theorem exists_eval?_eraseClause (h : f.normalForm r = .clauses cs) {c : Clause} (hc : c ∈ cs) :
    ∃ env : Assignment, env.Over f.vars ∧ (f.normalForm r).eval? r env = some r.absorbing ∧
      ((f.normalForm r).eraseClause c).eval? r env = some r.identity := by
  have hex := exclusive_normalForm h
  obtain ⟨env, henv, hdec⟩ := Clause.exists_over_decides r (hex.consistent c hc)
    (fun l hl => mem_vars_of_normalForm h hc hl)
  have hcovers : env.Covers (f.normalForm r).vars := henv.covers.mono (vars_normalForm_subset f r)
  refine ⟨env, henv, ?_, ?_⟩
  · rw [ClauseSet.eval?_of_covers hcovers, h,
      ClauseSet.eval_clauses_eq_absorbing_iff.mpr ⟨c, hc, hdec⟩]
  · rw [h] at hcovers ⊢
    have hsub : cs.erase c ⊆ cs := fun d hd => (SortedSet.mem_erase.mp hd).2
    have hnot : ¬ClauseSet.Decided (cs.erase c) r env.value := hex.not_decided_erase hc hdec
    have herase : (ClauseSet.clauses (cs.erase c)).eval r env.value = r.identity := by
      apply ClauseSet.eval_clauses_eq_of_decided_iff
      exact iff_of_false hnot r.identity_ne_absorbing
    exact ClauseSet.eval?_eq_some_iff.mpr ⟨hcovers.mono (ClauseSet.vars_mono hsub), herase⟩

theorem exists_normalForm_eq_clauses (r : Reading) (htrue : ¬f.Constantly true)
    (hfalse : ¬f.Constantly false) : ∃ cs, f.normalForm r = .clauses cs := by
  cases h : f.normalForm r with
  | const b =>
    have hconst := normalForm_eq_const_iff.mp h
    cases b with
    | false => exact absurd hconst hfalse
    | true => exact absurd hconst htrue
  | clauses cs => exact ⟨cs, rfl⟩

def SinglesOut (env : Assignment) (ds cs : SortedSet Clause) : Prop :=
  ((∃! d, d ∈ ds ∧ ∀ l ∈ d, l.eval? env = some true) ∧
      ¬∃ c ∈ cs, ∀ l ∈ c, l.eval? env = some false) ∨
    ((∃! c, c ∈ cs ∧ ∀ l ∈ c, l.eval? env = some false) ∧
      ¬∃ d ∈ ds, ∀ l ∈ d, l.eval? env = some true)

theorem singlesOut_normalForm {ds : SortedSet Clause} (hds : f.normalForm .disjunctive = .clauses ds)
    (hcs : f.normalForm .conjunctive = .clauses cs) (henv : env.Covers f.vars) :
    SinglesOut env ds cs := by
  cases heval : f.eval env.value with
  | true =>
    have hother : f.eval env.value ≠ Reading.conjunctive.absorbing := by rw [heval]; decide
    exact .inl ⟨existsUnique_absorbing_clause hds henv heval,
      not_exists_absorbing_clause hcs henv hother⟩
  | false =>
    have hother : f.eval env.value ≠ Reading.disjunctive.absorbing := by rw [heval]; decide
    exact .inr ⟨existsUnique_absorbing_clause hcs henv heval,
      not_exists_absorbing_clause hds henv hother⟩

/-- The clauses of a normal form are not empty, mention variables of the
formula only, do not oppose themselves and oppose each other, and none of them
can be left out. If the formula is not constant, every assignment of its
variables singles out one clause of the two forms. -/
theorem normalForm_clauses_partition (f : Formula) :
    (∀ (r : Reading) (cs : SortedSet Clause), f.normalForm r = .clauses cs →
      cs ≠ ∅ ∧ (∀ c ∈ cs, c ≠ ∅) ∧ (∀ c ∈ cs, ∀ l ∈ c, l.var ∈ f.occurrences) ∧
        (∀ c ∈ cs, ∀ l ∈ c, l.negate ∉ c) ∧
        (∀ c ∈ cs, ∀ d ∈ cs, c ≠ d → ∃ l ∈ c, l.negate ∈ d) ∧
        ∀ c ∈ cs, ∃ env : Assignment, env.Over f.vars ∧
          (f.normalForm r).eval? r env = some r.absorbing ∧
          ((f.normalForm r).eraseClause c).eval? r env = some r.identity) ∧
    (¬f.Constantly true → ¬f.Constantly false →
      ∃ ds cs : SortedSet Clause,
        f.normalForm .disjunctive = .clauses ds ∧ f.normalForm .conjunctive = .clauses cs ∧
        ∀ env : Assignment, env.Covers f.vars → SinglesOut env ds cs) := by
  constructor
  · intro r cs h
    obtain ⟨hne, hempty⟩ : (ClauseSet.clauses cs).Canonical := h ▸ canonical_normalForm f r
    have hex := exclusive_normalForm h
    exact ⟨hne, fun c hc he => hempty (he ▸ hc),
      fun c hc l hl => mem_vars.mp (mem_vars_of_normalForm h hc hl),
      hex.consistent, hex.opposed, fun c hc => exists_eval?_eraseClause h hc⟩
  · intro htrue hfalse
    obtain ⟨ds, hds⟩ := exists_normalForm_eq_clauses .disjunctive htrue hfalse
    obtain ⟨cs, hcs⟩ := exists_normalForm_eq_clauses .conjunctive htrue hfalse
    exact ⟨ds, cs, hds, hcs, fun env henv => singlesOut_normalForm hds hcs henv⟩

def implication : Formula := .binary .implies (.var .p) (.var .q)

def implicationCases : SortedSet Clause :=
  .ofList [{.negative .p}, .ofList [.positive .p, .positive .q]]

theorem normalForm_clauses_partition_implication :
    implication.normalForm .disjunctive = .clauses implicationCases ∧
      (∀ c ∈ implicationCases, ∀ d ∈ implicationCases, c ≠ d → ∃ l ∈ c, l.negate ∈ d) ∧
      ¬implication.Constantly true ∧ ¬implication.Constantly false ∧
      ∃ ds cs : SortedSet Clause, implication.normalForm .disjunctive = .clauses ds ∧
        implication.normalForm .conjunctive = .clauses cs ∧
        ∀ env : Assignment, env.Covers implication.vars → SinglesOut env ds cs := by
  have hcases : implication.normalForm .disjunctive = .clauses implicationCases := by
    decide +kernel
  have htrue : ¬implication.Constantly true := by
    rw [constantly_iff]
    intro h
    exact absurd (h (fun v => v == .p)) (by decide)
  have hfalse : ¬implication.Constantly false := by
    rw [constantly_iff]
    intro h
    exact absurd (h (fun _ => true)) (by decide)
  obtain ⟨hclauses, hpartition⟩ := normalForm_clauses_partition implication
  exact ⟨hcases, (hclauses _ _ hcases).2.2.2.2.1, htrue, hfalse, hpartition htrue hfalse⟩

end Formula

end Propositional
