import Propositional.Proofs.ClauseSet.Rebuilding
import Propositional.Proofs.Formula.Nesting
import Propositional.Proofs.UnitPropagation.Rounds

/-!
# Well-formed clause sets are rebuilt without simplification

The nested formula of a clause set has its clauses joined by the outer
connective and the literals of each clause by the inner one, from the left and
node for node. Rebuilding gives this formula unless two operands that meet are
equal or complementary. Different clauses have different nested formulas, for
the literals can be read back, and only unit clauses can be complementary. So
for a well-formed set rebuilding changes nothing, and the formula determines the
set.
-/

set_option autoImplicit false

namespace Propositional

open UnitPropagation (Consistent units mem_units)

variable {r : Reading} {c d : Clause} {cs ds : SortedSet Clause}

theorem Reading.inner_ne_outer (r : Reading) : r.inner ≠ r.outer := by
  cases r <;> decide

namespace Literal

def node (l : Literal) : Formula := if l.negated then .not (.var l.var) else .var l.var

theorem toFormula_eq_node (l : Literal) : l.toFormula = l.node := by
  rw [toFormula, node]
  split <;> rfl

theorem node_injective : Function.Injective node := by
  intro l k h
  obtain ⟨v, _ | _⟩ := l <;> obtain ⟨w, _ | _⟩ := k <;> cases h <;> rfl

theorem eq_negate_of_isComplement {l k : Literal} (h : l.node.IsComplement k.node) :
    k = l.negate := by
  obtain ⟨v, _ | _⟩ := l <;> obtain ⟨w, _ | _⟩ := k <;> rcases h with h | h <;> cases h <;> rfl

theorem operand_node (o : Connective) (l : Literal) : Formula.Operand o l.node := by
  obtain ⟨v, _ | _⟩ := l
  · exact ⟨rfl, rfl, fun g hg => by cases hg⟩
  · exact ⟨rfl, rfl, fun g hg => by cases hg; rfl⟩

end Literal

namespace Clause

def nested (r : Reading) (c : Clause) : Formula :=
  .nest r.inner r.absorbing (c.toList.map Literal.node)

theorem forall_operand_node (o : Connective) (c : Clause) :
    ∀ f ∈ c.toList.map Literal.node, Formula.Operand o f := by
  intro f hf
  obtain ⟨l, -, rfl⟩ := List.mem_map.mp hf
  exact l.operand_node o

theorem map_node_ne_nil (hc : c ≠ ∅) : c.toList.map Literal.node ≠ [] := by
  intro h
  exact hc (SortedSet.ext_toList (List.map_eq_nil_iff.mp h))

theorem toFormula_eq_nested (hc : Consistent c) : toFormula c r = nested r c := by
  rw [toFormula_eq_foldl, List.map_congr_left fun l _ => l.toFormula_eq_node]
  apply Formula.foldl_combine_eq_nest r.inner_absorbing (forall_operand_node _ c)
  rw [List.pairwise_map]
  refine c.nodup.imp_of_mem fun {l k} hl hk hne => ⟨fun h => hne (Literal.node_injective h), ?_⟩
  exact fun h => hc l hl (Literal.eq_negate_of_isComplement h ▸ hk)

theorem operands_nested (hc : c ≠ ∅) :
    (nested r c).operands r.inner = c.toList.map Literal.node :=
  Formula.operands_nest (map_node_ne_nil hc) fun f hf => (forall_operand_node _ c f hf).not_joined

theorem nested_injective (hc : c ≠ ∅) (hd : d ≠ ∅) (h : nested r c = nested r d) : c = d := by
  apply SortedSet.ext_toList
  apply List.map_inj_right Literal.node_injective |>.mp
  rw [← operands_nested (r := r) hc, h, operands_nested hd]

/-- The formula of a clause is that of its only literal or headed by the inner
connective. -/
theorem nested_cases (r : Reading) (hc : c ≠ ∅) :
    (∃ l, c = {l} ∧ nested r c = l.node) ∨ (nested r c).isConnective r.inner = true := by
  refine (Formula.nest_cases r.inner r.absorbing (map_node_ne_nil hc)).imp_left ?_
  rintro ⟨f, hf, hnest⟩
  obtain ⟨l, hl, rfl⟩ := List.map_eq_singleton_iff.mp hf
  exact ⟨l, SortedSet.ext_toList hl, hnest⟩

theorem operand_nested (hc : c ≠ ∅) : Formula.Operand r.outer (nested r c) := by
  rcases nested_cases r hc with ⟨l, -, hl⟩ | hinner
  · rw [hl]
    exact l.operand_node _
  · exact .of_isConnective hinner r.inner_ne_outer

/-- Complementary formulas come from opposite unit clauses only. -/
theorem exists_units_of_isComplement (hc : c ≠ ∅) (hd : d ≠ ∅)
    (h : (nested r c).IsComplement (nested r d)) : ∃ l, c = {l} ∧ d = {l.negate} := by
  rcases nested_cases r hc with ⟨l, hcl, hl⟩ | hl <;>
    rcases nested_cases r hd with ⟨k, hdk, hk⟩ | hk
  · rw [hl, hk] at h
    exact ⟨l, hcl, Literal.eq_negate_of_isComplement h ▸ hdk⟩
  · rw [hl] at h
    exact absurd h.symm ((l.operand_node r.inner).not_isComplement hk)
  · rw [hk] at h
    exact absurd h ((k.operand_node r.inner).not_isComplement hl)
  · rcases h with h | h
    · rw [h] at hl
      cases hl
    · rw [h] at hk
      cases hk

theorem mem_vars_nested {v : Variable} : v ∈ (nested r c).vars ↔ ∃ l ∈ c, l.var = v := by
  refine Formula.mem_vars_nest.trans (exists_congr fun l => and_congr_right fun _ => ?_)
  rw [← l.toFormula_eq_node, l.vars_toFormula, SortedSet.mem_singleton, eq_comm]

end Clause

namespace ClauseSet

structure WellFormed (cs : SortedSet Clause) : Prop where
  ne_empty : cs ≠ ∅
  not_mem_empty : ∅ ∉ cs
  consistent : ∀ c ∈ cs, Consistent c
  units_consistent : Consistent (units cs)

def nested (r : Reading) (cs : SortedSet Clause) : Formula :=
  .nest r.outer r.identity (cs.toList.map (Clause.nested r))

theorem mem_vars_nested {v : Variable} :
    v ∈ (nested r cs).vars ↔ v ∈ (clauses cs).vars := by
  rw [mem_vars_clauses]
  exact Formula.mem_vars_nest.trans
    (exists_congr fun c => and_congr_right fun _ => Clause.mem_vars_nested)

namespace WellFormed

theorem clause_ne_empty (h : WellFormed cs) (hc : c ∈ cs) : c ≠ ∅ :=
  fun he => h.not_mem_empty (he ▸ hc)

theorem forall_operand_nested (h : WellFormed cs) (r : Reading) :
    ∀ f ∈ cs.toList.map (Clause.nested r), Formula.Operand r.outer f := by
  intro f hf
  obtain ⟨c, hc, rfl⟩ := List.mem_map.mp hf
  exact Clause.operand_nested (h.clause_ne_empty hc)

theorem toFormula_eq_nested (h : WellFormed cs) (r : Reading) :
    (clauses cs).toFormula r = nested r cs := by
  rw [toFormula_clauses,
    List.map_congr_left fun c hc => Clause.toFormula_eq_nested (h.consistent c hc)]
  apply Formula.foldl_combine_eq_nest r.outer_identity (h.forall_operand_nested r)
  rw [List.pairwise_map]
  refine cs.nodup.imp_of_mem fun {c d} hc hd hne => ⟨?_, ?_⟩
  · exact fun heq => hne (Clause.nested_injective (h.clause_ne_empty hc) (h.clause_ne_empty hd) heq)
  · intro hopp
    obtain ⟨l, rfl, rfl⟩ :=
      Clause.exists_units_of_isComplement (h.clause_ne_empty hc) (h.clause_ne_empty hd) hopp
    exact h.units_consistent l (mem_units.mpr hc) (mem_units.mpr hd)

theorem operands_nested (h : WellFormed cs) (r : Reading) :
    (nested r cs).operands r.outer = cs.toList.map (Clause.nested r) := by
  apply Formula.operands_nest
  · exact fun hnil => h.ne_empty (SortedSet.ext_toList (List.map_eq_nil_iff.mp hnil))
  · exact fun f hf => (h.forall_operand_nested r f hf).not_joined

/-- Every clause of the one set is a clause of the other. -/
theorem subset_of_nested_eq (hcs : WellFormed cs) (hds : WellFormed ds)
    (h : nested r cs = nested r ds) : cs ⊆ ds := by
  intro c hc
  have hmem : Clause.nested r c ∈ ds.toList.map (Clause.nested r) := by
    rw [← hds.operands_nested r, ← h, hcs.operands_nested r]
    exact List.mem_map_of_mem hc
  obtain ⟨d, hd, hdc⟩ := List.mem_map.mp hmem
  exact Clause.nested_injective (hds.clause_ne_empty hd) (hcs.clause_ne_empty hc) hdc ▸ hd

theorem nested_injective (hcs : WellFormed cs) (hds : WellFormed ds)
    (h : nested r cs = nested r ds) : cs = ds :=
  SortedSet.ext fun c =>
    ⟨subset_of_nested_eq hcs hds h c, subset_of_nested_eq hds hcs h.symm c⟩

end WellFormed

end ClauseSet

end Propositional
