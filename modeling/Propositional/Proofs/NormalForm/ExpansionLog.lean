import Propositional.Log
import Propositional.Proofs.DecisionTree.Traversal
import Propositional.Proofs.Formula.Canonical

/-!
# What the log of a conversion tells of the expansion

The log lists the tests of the decision tree of the canonical formula with
their depths, and then the number of clauses. Both readings expand the same
formulas, in another order. As a pivot is gone from everything below it, the
variables of an entry and of its ancestors are different ones of the formula,
which bounds the depth by their number, and the number of the entries with it.
-/

set_option autoImplicit false

namespace Propositional

namespace Event

def pivot? : Event → Option (Nat × Variable)
  | opened .. => none
  | pivot depth v => some (depth, v)
  | converted .. => none
  | absorbed .. => none
  | collapsed .. => none

def pivots (log : List Event) : List (Nat × Variable) := log.filterMap pivot?

theorem pivots_append (ps : List (Nat × Variable)) (r : Reading) (n : Nat) :
    pivots (ps.map (fun p => pivot p.1 p.2) ++ [converted r n]) = ps := by
  rw [pivots, List.filterMap_append, List.filterMap_map]
  simp [Function.comp_def, pivot?]

end Event

namespace Formula

theorem head?_pivots_decisionTree (f : Formula) (r : Reading) (k : Nat) :
    (f.decisionTree.pivots r k).head? = f.pivot.map fun v => (k, v) := by
  cases h : f.pivot with
  | none => rw [decisionTree_of_pivot_none h, DecisionTree.pivots, List.head?_nil, Option.map_none]
  | some v =>
    rw [decisionTree_of_pivot_some h, DecisionTree.pivots, List.head?_cons, Option.map_some]

theorem pivots_normalFormLog (f : Formula) (r : Reading) :
    Event.pivots (f.normalFormLog r) = f.canonicalize.decisionTree.pivots r 0 := by
  rw [normalFormLog, Event.pivots_append, expand_eq]

structure ExpansionLog (f : Formula) (r : Reading) (result : ClauseSet) (log : List Event) :
    Prop where
  eq_append : ∃ n, log = (Event.pivots log).map (fun p => .pivot p.1 p.2) ++ [.converted r n] ∧
    (∀ b, result = .const b → n = 0) ∧ ∀ cs, result = .clauses cs → n = cs.size
  none_of_const : f.isConst = true → Event.pivots log = []
  first : f.isConst = false → ∃ v, f.pivot = some v ∧ (Event.pivots log).head? = some (0, v)
  depth_lt : ∀ p ∈ Event.pivots log, p.1 < f.vars.size
  tail_depth : ∀ p ∈ (Event.pivots log).tail, 1 ≤ p.1
  steps : (Event.pivots log).IsChain fun p q => q.1 ≤ p.1 + 1
  ancestors : ∀ before d v after, Event.pivots log = before ++ (d, v) :: after →
    (v :: DecisionTree.ancestors d before.reverse).Nodup ∧
      (DecisionTree.ancestors d before.reverse).length = d
  length_le : (Event.pivots log).length ≤ 2 ^ f.vars.size - 1

theorem listing_pivots_normalFormLog (f : Formula) (r : Reading) :
    DecisionTree.Listing 0 f.canonicalize.decisionTree.vars (Event.pivots (f.normalFormLog r)) := by
  rw [pivots_normalFormLog]
  exact DecisionTree.listing_pivots (readOnce_decisionTree f.canonicalize) r 0

theorem head?_pivots_normalFormLog (f : Formula) (r : Reading) :
    (Event.pivots (f.normalFormLog r)).head? = f.canonicalize.pivot.map fun v => (0, v) := by
  rw [pivots_normalFormLog, head?_pivots_decisionTree]

theorem length_pivots_normalFormLog_le (f : Formula) (r : Reading) :
    (Event.pivots (f.normalFormLog r)).length ≤ 2 ^ f.canonicalize.vars.size - 1 := by
  have hlt := DecisionTree.length_pivots_lt f.canonicalize.decisionTree r 0
  have hle : 2 ^ f.canonicalize.decisionTree.depth ≤ 2 ^ f.canonicalize.vars.size :=
    Nat.pow_le_pow_right (by decide) (depth_decisionTree_le _)
  rw [pivots_normalFormLog]
  omega

theorem expansionLog_normalFormLog (f : Formula) (r : Reading) :
    ExpansionLog f.canonicalize r (f.normalForm r) (f.normalFormLog r) where
  eq_append := by
    refine ⟨(f.normalForm r).clauseCount, ?_, fun b hb => ?_, fun cs hcs => ?_⟩
    · rw [pivots_normalFormLog, normalFormLog, expand_eq]
    · rw [hb]
      rfl
    · rw [hcs]
      rfl
  none_of_const h := by
    have hpivot := (canonical_canonicalize f).pivot_eq_none_iff.mpr h
    have hhead := head?_pivots_normalFormLog f r
    rw [hpivot, Option.map_none] at hhead
    exact List.head?_eq_none_iff.mp hhead
  first h := by
    have hpivot : f.canonicalize.pivot ≠ none := by
      simp [(canonical_canonicalize f).pivot_eq_none_iff, h]
    obtain ⟨v, hv⟩ := Option.ne_none_iff_exists'.mp hpivot
    exact ⟨v, hv, by rw [head?_pivots_normalFormLog, hv, Option.map_some]⟩
  depth_lt p hp := by
    calc p.1 < f.canonicalize.decisionTree.vars.size :=
          (listing_pivots_normalFormLog f r).depth_lt p hp
      _ ≤ f.canonicalize.vars.size := SortedSet.size_le_of_subset (vars_decisionTree_subset _)
  tail_depth := (listing_pivots_normalFormLog f r).tail_depth
  steps := (listing_pivots_normalFormLog f r).steps
  ancestors _ _ _ _ hsplit := (listing_pivots_normalFormLog f r).ancestors_of_root hsplit
  length_le := length_pivots_normalFormLog_le f r

/-- The log of a conversion is that of a decision tree no deeper than the
canonical formula has variables, and the two readings report the same
expansions in another order. -/
theorem normalFormLog_lists_tree (f : Formula) :
    (∀ r, ExpansionLog f.canonicalize r (f.normalForm r) (f.normalFormLog r)) ∧
      (Event.pivots (f.normalFormLog .conjunctive)).Perm
        (Event.pivots (f.normalFormLog .disjunctive)) := by
  refine ⟨expansionLog_normalFormLog f, ?_⟩
  rw [pivots_normalFormLog, pivots_normalFormLog]
  exact DecisionTree.perm_pivots _ .conjunctive .disjunctive 0

def lopsided : Formula := .binary .or (.binary .and (.var .p) (.var .q)) (.var .r)

theorem normalFormLog_lists_tree_lopsided :
    Event.pivots (lopsided.normalFormLog .conjunctive) = [(0, .p), (1, .r), (1, .q), (2, .r)] ∧
      Event.pivots (lopsided.normalFormLog .disjunctive) = [(0, .p), (1, .q), (2, .r), (1, .r)] ∧
      DecisionTree.ancestors 2 [(1, .q), (1, .r), (0, .p)] = [.q, .p] ∧
      [Variable.r, .q, .p].Nodup ∧
      [((0 : Nat), Variable.p), (1, .r), (1, .q), (2, .r)].Perm
        [(0, .p), (1, .q), (2, .r), (1, .r)] := by
  have hconjunctive : Event.pivots (lopsided.normalFormLog .conjunctive) =
      [(0, .p), (1, .r), (1, .q), (2, .r)] := by
    decide +kernel
  have hdisjunctive : Event.pivots (lopsided.normalFormLog .disjunctive) =
      [(0, .p), (1, .q), (2, .r), (1, .r)] := by
    decide +kernel
  have hancestors : DecisionTree.ancestors 2 [(1, .q), (1, .r), (0, .p)] = [.q, .p] := rfl
  obtain ⟨hlog, hperm⟩ := normalFormLog_lists_tree lopsided
  have hnodup :=
    ((hlog .conjunctive).ancestors [(0, .p), (1, .r), (1, .q)] 2 .r [] hconjunctive).1
  rw [hconjunctive, hdisjunctive] at hperm
  exact ⟨hconjunctive, hdisjunctive, hancestors, hnodup, hperm⟩

end Formula

end Propositional
