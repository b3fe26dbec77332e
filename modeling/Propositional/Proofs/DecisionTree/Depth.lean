import Mathlib.Algebra.Order.Ring.Nat
import Propositional.Proofs.DecisionTree.Branching
import Propositional.Proofs.SortedSet.Size

/-!
# The depth of a decision tree bounds its clauses

A tree that tests no variable twice is no deeper than it has variables. A node
has at most the clauses of its two branches, and a branch with a truth value has
at most one. Two such branches together have one clause or collapse, so a level
of the tree doubles the number of clauses only from the second one on.
-/

set_option autoImplicit false

namespace Propositional

namespace DecisionTree

variable {r : Reading} {t low high : DecisionTree}

def depth : DecisionTree → Nat
  | leaf _ => 0
  | branch _ low high => max low.depth high.depth + 1

theorem ReadOnce.depth_le (h : t.ReadOnce) : t.depth ≤ t.vars.size := by
  induction t with
  | leaf b => exact Nat.zero_le _
  | branch v low high ihl ihh =>
    obtain ⟨hvl, hvh, hlow, hhigh⟩ := h
    have hv := root_mem_vars v low high
    have hl : low.vars.size < (branch v low high).vars.size :=
      SortedSet.size_lt_of_subset (vars_low_subset v low high) hv hvl
    have hh : high.vars.size < (branch v low high).vars.size :=
      SortedSet.size_lt_of_subset (vars_high_subset v low high) hv hvh
    have := ihl hlow
    have := ihh hhigh
    rw [depth]
    omega

theorem exists_leaf_of_depth_eq_zero (h : t.depth = 0) : ∃ b, t = leaf b := by
  cases t with
  | leaf b => exact ⟨b, rfl⟩
  | branch v low high => simp [depth] at h

theorem size_guardedBy_identity (l : Literal) : (guardedBy l r (.const r.identity)).size = 0 := by
  rw [guardedBy_identity]
  rfl

theorem size_guardedBy_const_le (l : Literal) (b : Bool) :
    (guardedBy l r (.const b)).size ≤ 1 := by
  rcases r.eq_identity_or_absorbing b with rfl | rfl
  · rw [size_guardedBy_identity]
    exact Nat.zero_le 1
  · rw [guardedBy_absorbing]
    exact Nat.le_refl 1

/-- A branch below a node with two levels sends up no more than half of what
fits there. -/
theorem two_mul_size_guardedBy_le {n : Nat} (l : Literal) {s : ClauseSet} (hn : 0 < n)
    (h : ∀ cs, s = .clauses cs → 2 * cs.size ≤ 2 ^ n) : 2 * (guardedBy l r s).size ≤ 2 ^ n := by
  cases s with
  | const b =>
    have hone := size_guardedBy_const_le (r := r) l b
    have htwo : 2 ^ 1 ≤ 2 ^ n := Nat.pow_le_pow_right (by decide) hn
    omega
  | clauses cs =>
    have hmap : (guardedBy l r (.clauses cs)).size ≤ cs.size := SortedSet.size_map_le _ cs
    have := h cs rfl
    omega

/-- Leaves with one value collapse, and of two values one gives no clause. -/
theorem size_clauseSet_leaves_le {v : Variable} {a b : Bool} {cs : SortedSet Clause}
    (h : (branch v (leaf a) (leaf b)).clauseSet r = .clauses cs) : cs.size ≤ 1 := by
  by_cases hab : a = b
  · subst hab
    rw [clauseSet, clauseSet, ite_self, ite_self, collapse_guardedBy_const] at h
    cases h
  · rw [clauseSet_branch] at h
    rw [← eq_of_collapse_eq_clauses h]
    have hunion := SortedSet.size_union_le
      (guardedBy (.guard r v false) r ((leaf a).clauseSet r))
      (guardedBy (.guard r v true) r ((leaf b).clauseSet r))
    have hlow := size_guardedBy_const_le (r := r) (.guard r v false) a
    have hhigh := size_guardedBy_const_le (r := r) (.guard r v true) b
    rw [clauseSet, clauseSet] at hunion ⊢
    rcases r.eq_identity_or_absorbing a with rfl | rfl
    · rw [size_guardedBy_identity] at hunion
      omega
    · have hb : b = r.identity := (r.eq_identity_or_absorbing b).resolve_right (Ne.symm hab)
      subst hb
      rw [size_guardedBy_identity] at hunion
      omega

theorem two_mul_size_clauseSet_le {cs : SortedSet Clause} (h : t.clauseSet r = .clauses cs) :
    2 * cs.size ≤ 2 ^ t.depth := by
  induction t generalizing cs with
  | leaf b => cases h
  | branch v low high ihl ihh =>
    rw [depth, pow_succ]
    by_cases hdepth : max low.depth high.depth = 0
    · obtain ⟨a, rfl⟩ := exists_leaf_of_depth_eq_zero (t := low) (by omega)
      obtain ⟨b, rfl⟩ := exists_leaf_of_depth_eq_zero (t := high) (by omega)
      have hone := size_clauseSet_leaves_le h
      rw [hdepth, pow_zero]
      omega
    · rw [clauseSet_branch] at h
      rw [← eq_of_collapse_eq_clauses h]
      have hunion := SortedSet.size_union_le
        (guardedBy (.guard r v false) r (low.clauseSet r))
        (guardedBy (.guard r v true) r (high.clauseSet r))
      have hfits {t : DecisionTree} (ht : t.depth ≤ max low.depth high.depth) :
          2 ^ t.depth ≤ 2 ^ max low.depth high.depth := Nat.pow_le_pow_right (by decide) ht
      have hlow := two_mul_size_guardedBy_le (r := r) (.guard r v false) (Nat.pos_of_ne_zero hdepth)
        fun cs hcs => (ihl hcs).trans (hfits (Nat.le_max_left _ _))
      have hhigh := two_mul_size_guardedBy_le (r := r) (.guard r v true) (Nat.pos_of_ne_zero hdepth)
        fun cs hcs => (ihh hcs).trans (hfits (Nat.le_max_right _ _))
      omega

end DecisionTree

theorem Formula.depth_decisionTree_le (f : Formula) : f.decisionTree.depth ≤ f.vars.size :=
  (readOnce_decisionTree f).depth_le.trans (SortedSet.size_le_of_subset (vars_decisionTree_subset f))

end Propositional
