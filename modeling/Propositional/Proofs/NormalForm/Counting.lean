import Mathlib.Algebra.BigOperators.Group.List.Basic
import Propositional.Proofs.Assignment.BinaryOrder
import Propositional.Proofs.DecisionTree.Depth
import Propositional.Proofs.NormalForm.Partition
import Propositional.Proofs.UnitPropagation.Growth

/-!
# The clauses of a normal form count the assignments

A clause of `k` literals without opposites fixes the values of `k` variables,
so of the `2 ^ n` listed assignments `2 ^ (n - k)` make all its literals
absorbing. The clauses of a normal form share no assignment, and together they
have those under which the formula has the absorbing value. Counting each of
these once by its assignment and once by its clause gives the same number.
-/

set_option autoImplicit false

namespace Propositional

open UnitPropagation (Consistent)

theorem sum_map_ite_eq_countP {β : Type} (p : β → Bool) (cs : List β) :
    (cs.map fun c => if p c then 1 else 0).sum = cs.countP p := by
  induction cs with
  | nil => rfl
  | cons c cs ih => rw [List.map_cons, List.sum_cons, ih, List.countP_cons, Nat.add_comm]

theorem countP_eq_sum_countP {α β : Type} {l : List α} {cs : List β} {p : α → Bool}
    {q : β → α → Bool} (h : ∀ a ∈ l, cs.countP (q · a) = if p a then 1 else 0) :
    l.countP p = (cs.map fun c => l.countP (q c)).sum := by
  induction l with
  | nil => simp
  | cons a l ih =>
    obtain ⟨ha, hl⟩ := List.forall_mem_cons.mp h
    simp only [List.countP_cons]
    rw [List.sum_map_add, ← ih hl, sum_map_ite_eq_countP (q · a), ha]

theorem countP_eq_one_of_existsUnique {α : Type} [DecidableEq α] {l : List α} {p : α → Bool}
    (hl : l.Nodup) (h : ∃! a, a ∈ l ∧ p a = true) : l.countP p = 1 := by
  obtain ⟨a, ⟨ha, hpa⟩, hunique⟩ := h
  rw [← List.count_eq_one_of_mem hl ha, List.count_eq_countP]
  apply List.countP_congr
  intro b hb
  rw [beq_iff_eq]
  constructor
  · exact fun hpb => hunique b ⟨hb, hpb⟩
  · rintro rfl
    exact hpa

namespace Literal

def demand (l : Literal) (r : Reading) : Bool := if l.negated then r.identity else r.absorbing

theorem eval?_eq_absorbing_iff {l : Literal} {r : Reading} {env : Assignment} :
    l.eval? env = some r.absorbing ↔ env.get? l.var = some (l.demand r) := by
  rw [eval?, demand, Option.map_eq_some_iff]
  cases l.negated <;> simp [Reading.absorbing]

end Literal

namespace Clause

variable {c : Clause} {r : Reading} {vars : SortedSet Variable}

def demand? (c : Clause) (r : Reading) (v : Variable) : Option Bool :=
  (c.toList.find? (·.var = v)).map (·.demand r)

theorem demand?_of_mem (hc : Consistent c) {l : Literal} (hl : l ∈ c) :
    demand? c r l.var = some (l.demand r) := by
  rw [demand?, Option.map_eq_some_iff]
  cases h : c.toList.find? (·.var = l.var) with
  | none =>
    rw [List.find?_eq_none] at h
    exact absurd (decide_eq_true rfl) (h l hl)
  | some k =>
    have hk : k ∈ c := List.mem_of_find?_eq_some h
    have hvar : k.var = l.var := by simpa using List.find?_some h
    exact ⟨l, congrArg some (hc.eq_of_var_eq hk hl hvar), rfl⟩

theorem exists_mem_of_demand? {v : Variable} {b : Bool} (h : demand? c r v = some b) :
    ∃ l ∈ c, l.var = v ∧ l.demand r = b := by
  obtain ⟨l, hl, rfl⟩ := Option.map_eq_some_iff.mp h
  exact ⟨l, List.mem_of_find?_eq_some hl, by simpa using List.find?_some hl, rfl⟩

theorem keeps_demand?_iff (hc : Consistent c) (hvars : ∀ l ∈ c, l.var ∈ vars)
    {env : Assignment} :
    env.Keeps vars (demand? c r) ↔ ∀ l ∈ c, l.eval? env = some r.absorbing := by
  constructor
  · intro h l hl
    exact Literal.eval?_eq_absorbing_iff.mpr (h _ (hvars l hl) _ (demand?_of_mem hc hl))
  · intro h v _ b hb
    obtain ⟨l, hl, rfl, rfl⟩ := exists_mem_of_demand? hb
    exact Literal.eval?_eq_absorbing_iff.mp (h l hl)

/-- The variables of the clause are as many as its literals. -/
theorem size_filter_demand? (hc : Consistent c) (hvars : ∀ l ∈ c, l.var ∈ vars) :
    (vars.filter fun v => (demand? c r v).isSome).size = c.size := by
  have hperm : ((vars.filter fun v => (demand? c r v).isSome).toList).Perm
      (c.toList.map Literal.var) := by
    rw [List.perm_ext_iff_of_nodup (SortedSet.nodup _) (nodup_map_var hc)]
    intro v
    rw [← SortedSet.mem_def, SortedSet.mem_filter, List.mem_map, Option.isSome_iff_exists]
    constructor
    · rintro ⟨-, b, hb⟩
      obtain ⟨l, hl, hvar, -⟩ := exists_mem_of_demand? hb
      exact ⟨l, hl, hvar⟩
    · rintro ⟨l, hl, rfl⟩
      exact ⟨hvars l hl, _, demand?_of_mem hc hl⟩
  rw [SortedSet.size, hperm.length_eq, List.length_map, SortedSet.size]

theorem countP_allOver_absorbing (r : Reading) (hc : Consistent c)
    (hvars : ∀ l ∈ c, l.var ∈ vars) :
    (Assignment.allOver vars).countP (fun env => ∀ l ∈ c, l.eval? env = some r.absorbing) =
      2 ^ (vars.size - c.size) := by
  have hsplit := List.length_eq_length_filter_add (l := vars.toList)
    fun v => (demand? c r v).isSome
  have hfree : (vars.filter fun v => (demand? c r v).isNone).size = vars.size - c.size := by
    rw [← size_filter_demand? (r := r) hc hvars]
    simp only [SortedSet.size, SortedSet.filter, Option.not_isSome] at hsplit ⊢
    omega
  rw [← hfree, ← Assignment.countP_allOver_keeps]
  apply List.countP_congr
  intro env _
  rw [decide_eq_true_eq, decide_eq_true_eq, keeps_demand?_iff hc hvars]

end Clause

/-- How many of the assignments to `n` variables the clauses account for, each
clause for those that it leaves to the variables it does not mention. -/
def ClauseSet.weight (s : ClauseSet) (r : Reading) (n : Nat) : Nat :=
  match s with
  | const b => if b = r.absorbing then 2 ^ n else 0
  | clauses cs => (cs.toList.map fun c => 2 ^ (n - c.size)).sum

namespace Formula

variable {f : Formula} {r : Reading} {cs : SortedSet Clause}

theorem countP_absorbing_clauses (h : f.normalForm r = .clauses cs) {env : Assignment}
    (henv : env.Covers f.vars) :
    cs.toList.countP (fun c => ∀ l ∈ c, l.eval? env = some r.absorbing) =
      if f.eval? env = some r.absorbing then 1 else 0 := by
  have hvalue : f.eval? env = some r.absorbing ↔ f.eval env.value = r.absorbing := by
    rw [eval?_of_covers henv, Option.some.injEq]
  by_cases heval : f.eval env.value = r.absorbing
  · rw [if_pos (hvalue.mpr heval)]
    apply countP_eq_one_of_existsUnique cs.nodup
    simp only [decide_eq_true_eq]
    exact existsUnique_absorbing_clause h henv heval
  · rw [if_neg (mt hvalue.mp heval), List.countP_eq_zero]
    intro c hc hlits
    exact not_exists_absorbing_clause h henv heval ⟨c, hc, of_decide_eq_true hlits⟩

theorem weight_normalForm (f : Formula) (r : Reading) :
    (f.normalForm r).weight r f.vars.size =
      (Assignment.allOver f.vars).countP fun env => f.eval? env = some r.absorbing := by
  cases h : f.normalForm r with
  | const b =>
    have hconst : ∀ env ∈ Assignment.allOver f.vars, f.eval? env = some b := fun env henv =>
      normalForm_eq_const_iff.mp h env (Assignment.over_of_mem_allOver henv)
    rw [ClauseSet.weight]
    by_cases hb : b = r.absorbing
    · rw [if_pos hb, ← Assignment.length_allOver, eq_comm, List.countP_eq_length]
      exact fun env henv => decide_eq_true (hb ▸ hconst env henv)
    · rw [if_neg hb, eq_comm, List.countP_eq_zero]
      intro env henv
      simp [hconst env henv, hb]
  | clauses cs =>
    have hclause : ∀ c ∈ cs.toList, 2 ^ (f.vars.size - c.size) =
        (Assignment.allOver f.vars).countP
          fun env => ∀ l ∈ c, l.eval? env = some r.absorbing := by
      intro c hc
      have hconsistent := (exclusive_normalForm h).consistent c hc
      exact (Clause.countP_allOver_absorbing r hconsistent
        fun l hl => mem_vars_of_normalForm h hc hl).symm
    rw [ClauseSet.weight, List.map_congr_left hclause]
    apply Eq.symm
    apply countP_eq_sum_countP
    intro env henv
    simpa using countP_absorbing_clauses h (Assignment.over_of_mem_allOver henv).covers

theorem depth_decisionTree_canonicalize_le (f : Formula) :
    f.canonicalize.decisionTree.depth ≤ f.vars.size :=
  (depth_decisionTree_le _).trans (SortedSet.size_le_of_subset (vars_canonicalize_subset f))

theorem two_mul_size_normalForm_le (h : f.normalForm r = .clauses cs) :
    2 * cs.size ≤ 2 ^ f.vars.size :=
  (DecisionTree.two_mul_size_clauseSet_le (normalForm_eq_clauseSet f r ▸ h)).trans
    (Nat.pow_le_pow_right (by decide) (depth_decisionTree_canonicalize_le f))

theorem size_normalForm_le (h : f.normalForm r = .clauses cs) :
    0 < f.vars.size ∧ cs.size ≤ 2 ^ (f.vars.size - 1) := by
  have hne : cs ≠ ∅ := by
    rintro rfl
    exact normalForm_ne_no_clauses f r h
  obtain ⟨c, hc⟩ := SortedSet.exists_mem_of_ne_empty hne
  have hpos : 0 < cs.size := List.length_pos_of_mem hc
  have hdouble := two_mul_size_normalForm_le h
  cases hn : f.vars.size with
  | zero =>
    rw [hn] at hdouble
    omega
  | succ n =>
    rw [hn, Nat.pow_succ] at hdouble
    refine ⟨by omega, ?_⟩
    rw [Nat.add_sub_cancel]
    omega

/-- The clauses of the disjunctive normal form account for the listed
assignments that make the formula true, those of the conjunctive one for the
assignments that make it false, whichever product of the choices lists them. No
clause has more literals than the formula has variables, and there are at most
half as many clauses as assignments. -/
theorem normalForm_counts_assignments (f : Formula) :
    (∀ product, Assignment.IsProduct product →
      (f.normalForm .disjunctive).weight .disjunctive f.vars.size =
          (Assignment.allThrough product f.vars).countP (fun env => f.eval? env = some true) ∧
        (f.normalForm .conjunctive).weight .conjunctive f.vars.size =
          (Assignment.allThrough product f.vars).countP (fun env => f.eval? env = some false)) ∧
      (f.normalForm .disjunctive).weight .disjunctive f.vars.size =
        (Assignment.allOver f.vars).countP (fun env => f.eval? env = some true) ∧
      (f.normalForm .conjunctive).weight .conjunctive f.vars.size =
        (Assignment.allOver f.vars).countP (fun env => f.eval? env = some false) ∧
      ∀ r cs, f.normalForm r = .clauses cs →
        (∀ c ∈ cs, c.size ≤ f.vars.size) ∧
          0 < f.vars.size ∧ cs.size ≤ 2 ^ (f.vars.size - 1) := by
  have hdisjunctive := weight_normalForm f .disjunctive
  have hconjunctive := weight_normalForm f .conjunctive
  refine ⟨?_, hdisjunctive, hconjunctive, ?_⟩
  · intro product hproduct
    rw [hproduct.allThrough_eq]
    exact ⟨hdisjunctive, hconjunctive⟩
  · intro r cs h
    refine ⟨fun c hc => ?_, size_normalForm_le h⟩
    have hconsistent := (exclusive_normalForm h).consistent c hc
    exact Clause.size_le hconsistent fun l hl => mem_vars_of_normalForm h hc hl

def equivalence : Formula :=
  .binary .and (.binary .implies (.var .p) (.var .q)) (.binary .implies (.var .q) (.var .p))

def equivalenceCases : SortedSet Clause :=
  .ofList [.ofList [.positive .p, .positive .q], .ofList [.negative .p, .negative .q]]

theorem normalForm_counts_assignments_equivalence :
    equivalence.normalForm .disjunctive = .clauses equivalenceCases ∧
      equivalence.vars.size = 2 ∧ equivalenceCases.size = 2 ^ (2 - 1) ∧
      Assignment.IsProduct Assignment.choiceRows ∧
      2 = (Assignment.allThrough Assignment.choiceRows equivalence.vars).countP
        (fun env => equivalence.eval? env = some true) ∧
      2 = (Assignment.allOver equivalence.vars).countP
        (fun env => equivalence.eval? env = some true) ∧
      (∀ c ∈ equivalenceCases, c.size ≤ equivalence.vars.size) ∧
      equivalenceCases.size ≤ 2 ^ (equivalence.vars.size - 1) := by
  have hcases : equivalence.normalForm .disjunctive = .clauses equivalenceCases := by
    decide +kernel
  have hweight : (ClauseSet.clauses equivalenceCases).weight .disjunctive
      equivalence.vars.size = 2 := by
    decide
  obtain ⟨hproducts, hcount, -, hbounds⟩ := normalForm_counts_assignments equivalence
  have hthrough := (hproducts _ Assignment.isProduct_choiceRows).1
  rw [hcases, hweight] at hthrough hcount
  obtain ⟨hclause, -, hsize⟩ := hbounds .disjunctive equivalenceCases hcases
  exact ⟨hcases, by decide, by decide, Assignment.isProduct_choiceRows, hthrough, hcount,
    hclause, hsize⟩

end Formula

end Propositional
