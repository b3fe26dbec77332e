import Propositional.Proofs.ClauseSet.Meaning

/-!
# Clause sets and the formulas rebuilt from them

A formula is rebuilt from a clause set by two nested joins that simplify as they
go, each beginning with the value that leaves the rest unchanged; a set is
evaluated by two nested folds that begin with the same values. Simplification is
invisible to evaluation, so both give one truth value, for degenerate sets as
for others. A set has no value exactly when one of its literals has none.
-/

set_option autoImplicit false

namespace Propositional

variable {value : Variable → Bool} {v : Variable} {r : Reading} {env : Assignment} {b : Bool}

namespace Formula

theorem eval_foldl_combine (c : Connective) (f : Formula) (fs : List Formula) :
    (fs.foldl (combine c) f).eval value =
      fs.foldl (fun acc g => c.eval acc (g.eval value)) (f.eval value) := by
  induction fs generalizing f with
  | nil => rfl
  | cons g fs ih => rw [List.foldl_cons, ih, eval_combine, List.foldl_cons]

theorem mem_vars_foldl_combine {c : Connective} {f : Formula} {fs : List Formula}
    (h : v ∈ (fs.foldl (combine c) f).vars) : v ∈ f.vars ∨ ∃ g ∈ fs, v ∈ g.vars := by
  induction fs generalizing f with
  | nil => exact .inl h
  | cons g fs ih =>
    rcases ih h with hfirst | ⟨k, hk, hv⟩
    · rcases SortedSet.mem_union.mp (vars_combine_subset c f g v hfirst) with hf | hg
      · exact .inl hf
      · exact .inr ⟨g, List.mem_cons_self, hg⟩
    · exact .inr ⟨k, List.mem_cons_of_mem g hk, hv⟩

end Formula

namespace Literal

theorem eval_toFormula (l : Literal) : l.toFormula.eval value = l.eval value := by
  rw [toFormula, eval]
  split
  · rw [Formula.eval_negate, Formula.eval]
  · rfl

theorem vars_toFormula (l : Literal) : l.toFormula.vars = {l.var} := by
  rw [toFormula]
  split <;> rfl

end Literal

namespace Clause

theorem eval_toFormula (c : Clause) (r : Reading) :
    (toFormula c r).eval value = eval c r value := by
  rw [toFormula_eq_foldl, Formula.eval_foldl_combine, List.foldl_map, eval]
  simp only [Literal.eval_toFormula, Formula.eval]

theorem mem_vars_toFormula {c : Clause} (h : v ∈ (toFormula c r).vars) : ∃ l ∈ c, l.var = v := by
  rw [toFormula_eq_foldl] at h
  rcases Formula.mem_vars_foldl_combine h with h | ⟨g, hg, hv⟩
  · exact absurd h (SortedSet.not_mem_empty v)
  · obtain ⟨l, hl, rfl⟩ := List.mem_map.mp hg
    rw [Literal.vars_toFormula, SortedSet.mem_singleton] at hv
    exact ⟨l, hl, hv.symm⟩

end Clause

namespace ClauseSet

variable {s : ClauseSet} {cs : SortedSet Clause}

theorem eval_toFormula (s : ClauseSet) (r : Reading) :
    (s.toFormula r).eval value = s.eval r value := by
  cases s with
  | const b => rw [toFormula_const, Formula.eval, eval]
  | clauses cs =>
    rw [toFormula_clauses, Formula.eval_foldl_combine, List.foldl_map, eval]
    simp only [Clause.eval_toFormula, Formula.eval]

theorem vars_toFormula_subset (s : ClauseSet) (r : Reading) : (s.toFormula r).vars ⊆ s.vars := by
  intro v h
  cases s with
  | const b => rwa [toFormula_const] at h
  | clauses cs =>
    rw [toFormula_clauses] at h
    rcases Formula.mem_vars_foldl_combine h with h | ⟨g, hg, hv⟩
    · exact absurd h (SortedSet.not_mem_empty v)
    · obtain ⟨c, hc, rfl⟩ := List.mem_map.mp hg
      exact mem_vars_clauses.mpr ⟨c, hc, Clause.mem_vars_toFormula hv⟩

theorem eval?_toFormula (h : s.eval? r env = some b) : (s.toFormula r).eval? env = some b := by
  obtain ⟨hcovers, hvalue⟩ := eval?_eq_some_iff.mp h
  apply Formula.eval?_eq_some_iff.mpr
  exact ⟨hcovers.mono (vars_toFormula_subset s r), (eval_toFormula s r).trans hvalue⟩

theorem eval?_eq_none_iff_not_covers : s.eval? r env = none ↔ ¬env.Covers s.vars := by
  constructor
  · intro h hcovers
    rw [eval?_of_covers hcovers] at h
    cases h
  · intro h
    cases hs : s.eval? r env with
    | none => rfl
    | some b => exact absurd (covers_of_eval? hs) h

theorem covers_clauses_iff :
    env.Covers (clauses cs).vars ↔ ∀ c ∈ cs, ∀ l ∈ c, (env.get? l.var).isSome = true := by
  constructor
  · exact fun h c hc l hl => h l.var (mem_vars_clauses.mpr ⟨c, hc, l, hl, rfl⟩)
  · intro h v hv
    obtain ⟨c, hc, l, hl, rfl⟩ := mem_vars_clauses.mp hv
    exact h c hc l hl

theorem eval?_eq_none_iff :
    s.eval? r env = none ↔
      ∃ cs, s = clauses cs ∧ ∃ c ∈ cs, ∃ l ∈ c, env.get? l.var = none := by
  rw [eval?_eq_none_iff_not_covers]
  cases s with
  | const b => simp [Assignment.Covers, vars]
  | clauses cs => simp [covers_clauses_iff]

def Holds (cs : SortedSet Clause) (env : Assignment) : Reading → Prop
  | .conjunctive => ∀ c ∈ cs, ∃ l ∈ c, l.eval? env = some true
  | .disjunctive => ∃ c ∈ cs, ∀ l ∈ c, l.eval? env = some true

instance (cs : SortedSet Clause) (env : Assignment) : (r : Reading) → Decidable (Holds cs env r)
  | .conjunctive => inferInstanceAs (Decidable (∀ c ∈ cs, ∃ l ∈ c, l.eval? env = some true))
  | .disjunctive => inferInstanceAs (Decidable (∃ c ∈ cs, ∀ l ∈ c, l.eval? env = some true))

section Covered

variable (h : env.Covers (clauses cs).vars)

include h

theorem eval?_literal_iff {c : Clause} {l : Literal} (hc : c ∈ cs) (hl : l ∈ c) :
    l.eval? env = some true ↔ l.eval env.value = true := by
  rw [Literal.eval?_eq_some_iff]
  exact and_iff_right (covers_clauses_iff.mp h c hc l hl)

theorem holds_conjunctive_iff :
    Holds cs env .conjunctive ↔ ¬Decided cs .conjunctive env.value := by
  have habsorbing : Reading.conjunctive.absorbing = false := rfl
  simp only [Holds, Decided, Clause.Decides, habsorbing, not_exists, not_and, not_forall,
    Bool.not_eq_false, exists_prop]
  exact forall₂_congr fun c hc => exists_congr fun l =>
    and_congr_right fun hl => eval?_literal_iff h hc hl

theorem holds_disjunctive_iff :
    Holds cs env .disjunctive ↔ Decided cs .disjunctive env.value :=
  exists_congr fun _ => and_congr_right fun hc => forall₂_congr fun _ hl =>
    eval?_literal_iff h hc hl

end Covered

/-- A value is the truth of what the set says in the reading. -/
theorem eq_true_iff_holds (h : (clauses cs).eval? r env = some b) :
    b = true ↔ Holds cs env r := by
  obtain ⟨hcovers, rfl⟩ := eval?_eq_some_iff.mp h
  cases r with
  | conjunctive =>
    rw [holds_conjunctive_iff hcovers, ← eval_clauses_eq_absorbing_iff]
    exact Bool.ne_false_iff.symm
  | disjunctive =>
    rw [holds_disjunctive_iff hcovers, ← eval_clauses_eq_absorbing_iff]
    rfl

/-- Evaluation fails exactly when some clause has a literal without a value.
Otherwise it tells whether the clauses hold in the reading, and the formula
rebuilt from the set has the same value. -/
theorem eval?_agrees_with_toFormula (s : ClauseSet) (r : Reading) (env : Assignment) :
    (s.eval? r env = none ↔
      ∃ cs, s = clauses cs ∧ ∃ c ∈ cs, ∃ l ∈ c, env.get? l.var = none) ∧
    (∀ cs b, s = clauses cs → s.eval? r env = some b → (b = true ↔ Holds cs env r)) ∧
    ∀ b, s.eval? r env = some b → (s.toFormula r).eval? env = some b := by
  refine ⟨eval?_eq_none_iff, ?_, fun b => eval?_toFormula⟩
  rintro cs b rfl h
  exact eq_true_iff_holds h

def degenerate : SortedSet Clause :=
  .ofList [{.positive .p}, {.negative .p}, .ofList [.positive .p, .negative .p], ∅]

theorem eval?_agrees_with_toFormula_degenerate :
    (clauses degenerate).eval? .disjunctive (.ofList [(.p, false)]) = some true ∧
      Holds degenerate (.ofList [(.p, false)]) .disjunctive ∧
      ((clauses degenerate).toFormula .disjunctive).eval? (.ofList [(.p, false)]) = some true := by
  obtain ⟨-, hholds, hformula⟩ :=
    eval?_agrees_with_toFormula (clauses degenerate) .disjunctive (.ofList [(.p, false)])
  have heval : (clauses degenerate).eval? .disjunctive (.ofList [(.p, false)]) = some true := by
    decide
  exact ⟨heval, (hholds degenerate true rfl heval).mp rfl, hformula true heval⟩

end ClauseSet

end Propositional
