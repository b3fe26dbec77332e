import Propositional.Proofs.DecisionTree.Meaning
import Propositional.Proofs.UnitPropagation.Rounds

/-!
# The clauses of a branching

Each branch of a node gives its clauses together with the literal that guards
it. The guards of the two branches are opposite, and in a tree that tests no
variable twice neither occurs in the clauses it is put to. So no clause of such
a tree has two opposite literals, and any two clauses of it oppose each other in
a variable: they part at the node where their ways to the leaves do.
-/

set_option autoImplicit false

namespace Propositional

open UnitPropagation (Consistent)

namespace Literal

def guard (r : Reading) (v : Variable) (b : Bool) : Literal :=
  if b = r.absorbing then positive v else negative v

variable {r : Reading} {v : Variable} {b : Bool}

@[simp] theorem guard_var : (guard r v b).var = v := by
  rw [guard]
  split <;> rfl

theorem guard_not : guard r v (!b) = (guard r v b).negate := by
  rw [guard, guard]
  by_cases h : b = r.absorbing
  · have hnot : (!b) ≠ r.absorbing := by simp [← h]
    rw [if_neg hnot, if_pos h]
    rfl
  · rw [if_pos (Reading.not_eq_absorbing_iff.mpr h), if_neg h]
    rfl

theorem guard_dual : guard r.dual v b = (guard r v b).negate := by
  rw [← guard_not, guard, guard, Reading.absorbing_dual, Reading.absorbing]
  cases b <;> cases r.identity <;> rfl

end Literal

namespace UnitPropagation

theorem Consistent.insert {l : Literal} {c : Clause} (h : Consistent c)
    (hl : ∀ k ∈ c, k.var ≠ l.var) : Consistent (insert l c) := by
  intro k hk hn
  rcases SortedSet.mem_insert.mp hk with rfl | hk <;> rcases SortedSet.mem_insert.mp hn with hn | hn
  · exact k.negate_ne hn
  · exact hl _ hn rfl
  · exact hl k hk (hn ▸ rfl)
  · exact h k hk hn

end UnitPropagation

namespace ClauseSet

structure Exclusive (cs : SortedSet Clause) : Prop where
  consistent : ∀ c ∈ cs, Consistent c
  opposed : ∀ c ∈ cs, ∀ d ∈ cs, c ≠ d → ∃ l ∈ c, l.negate ∈ d

theorem Exclusive.union {cs ds : SortedSet Clause} {l : Literal} (hcs : Exclusive cs)
    (hds : Exclusive ds) (hl : ∀ c ∈ cs, l ∈ c) (hn : ∀ d ∈ ds, l.negate ∈ d) :
    Exclusive (cs ∪ ds) := by
  constructor
  · intro c hc
    exact (SortedSet.mem_union.mp hc).elim (hcs.consistent c) (hds.consistent c)
  · intro c hc d hd hne
    rcases SortedSet.mem_union.mp hc with hc | hc <;> rcases SortedSet.mem_union.mp hd with hd | hd
    · exact hcs.opposed c hc d hd hne
    · exact ⟨l, hl c hc, hn d hd⟩
    · exact ⟨l.negate, hn c hc, l.negate_negate.symm ▸ hl d hd⟩
    · exact hds.opposed c hc d hd hne

/-- Two clauses that decide under one valuation are the same. -/
theorem Exclusive.eq_of_decides {cs : SortedSet Clause} {r : Reading} {value : Variable → Bool}
    (h : Exclusive cs) {c d : Clause} (hc : c ∈ cs) (hd : d ∈ cs)
    (hcv : Clause.Decides c r value) (hdv : Clause.Decides d r value) : c = d := by
  apply Classical.byContradiction
  intro hne
  obtain ⟨l, hl, hn⟩ := h.opposed c hc d hd hne
  have hneg := hdv _ hn
  rw [Literal.eval_negate, Reading.not_eq_absorbing_iff] at hneg
  exact hneg (hcv l hl)

end ClauseSet

namespace DecisionTree

variable {r : Reading}

/-- The clauses of a node, branch by branch. -/
theorem clauseSet_branch (v : Variable) (low high : DecisionTree) :
    (branch v low high).clauseSet r =
      collapse v r (guardedBy (.guard r v false) r (low.clauseSet r) ∪
        guardedBy (.guard r v true) r (high.clauseSet r)) := by
  cases r with
  | conjunctive => rfl
  | disjunctive => exact congrArg (collapse v _) SortedSet.union_comm

theorem eq_of_collapse_eq_clauses {v : Variable} {cs ds : SortedSet Clause}
    (h : collapse v r ds = .clauses cs) : ds = cs := by
  rw [collapse] at h
  split at h
  · cases h
  · split at h
    · cases h
    · exact ClauseSet.clauses.inj h

section Guarded

variable {l : Literal} {s : ClauseSet} (hs : ∀ cs, s = .clauses cs → ClauseSet.Exclusive cs)

include hs

theorem consistent_of_mem_guardedBy (hl : l.var ∉ s.vars) {c : Clause}
    (hc : c ∈ guardedBy l r s) : Consistent c := by
  rcases mem_guardedBy.mp hc with ⟨-, rfl⟩ | ⟨cs, rfl, d, hd, rfl⟩
  · apply UnitPropagation.Consistent.insert
    · exact fun k hk => absurd hk (SortedSet.not_mem_empty k)
    · exact fun k hk => absurd hk (SortedSet.not_mem_empty k)
  · apply ((hs cs rfl).consistent d hd).insert
    intro k hk hkl
    exact hl (ClauseSet.mem_vars_clauses.mpr ⟨d, hd, k, hk, hkl⟩)

theorem opposed_of_mem_guardedBy {c d : Clause} (hc : c ∈ guardedBy l r s)
    (hd : d ∈ guardedBy l r s) (hne : c ≠ d) : ∃ k ∈ c, k.negate ∈ d := by
  rcases mem_guardedBy.mp hc with ⟨hconst, rfl⟩ | ⟨cs, rfl, c', hc', rfl⟩
  · rcases mem_guardedBy.mp hd with ⟨-, rfl⟩ | ⟨ds, hds, -⟩
    · exact absurd rfl hne
    · exact absurd (hconst.symm.trans hds) (by simp)
  · rcases mem_guardedBy.mp hd with ⟨hconst, -⟩ | ⟨ds, hds, d', hd', rfl⟩
    · exact absurd hconst (by simp)
    · cases hds
      have hne' : c' ≠ d' := fun h => hne (congrArg _ h)
      obtain ⟨k, hk, hn⟩ := (hs cs rfl).opposed c' hc' d' hd' hne'
      exact ⟨k, SortedSet.mem_insert.mpr (.inr hk), SortedSet.mem_insert.mpr (.inr hn)⟩

theorem exclusive_guardedBy (hl : l.var ∉ s.vars) : ClauseSet.Exclusive (guardedBy l r s) where
  consistent _ hc := consistent_of_mem_guardedBy hs hl hc
  opposed _ hc _ hd hne := opposed_of_mem_guardedBy hs hc hd hne

end Guarded

theorem exclusive_clauseSet {t : DecisionTree} {cs : SortedSet Clause} (h : t.ReadOnce)
    (hcs : t.clauseSet r = .clauses cs) : ClauseSet.Exclusive cs := by
  induction t generalizing cs with
  | leaf b => cases hcs
  | branch v low high ihl ihh =>
    obtain ⟨hvl, hvh, hlow, hhigh⟩ := h
    rw [clauseSet_branch] at hcs
    rw [← eq_of_collapse_eq_clauses hcs]
    have hl : ClauseSet.Exclusive (guardedBy (.guard r v false) r (low.clauseSet r)) := by
      apply exclusive_guardedBy (fun ds hds => ihl hlow hds)
      rw [Literal.guard_var]
      exact fun hv => hvl (vars_clauseSet_subset low v hv)
    have hh : ClauseSet.Exclusive (guardedBy (.guard r v true) r (high.clauseSet r)) := by
      apply exclusive_guardedBy (fun ds hds => ihh hhigh hds)
      rw [Literal.guard_var]
      exact fun hv => hvh (vars_clauseSet_subset high v hv)
    apply hl.union hh (l := .guard r v false)
    · exact fun c hc => mem_of_mem_guardedBy hc
    · intro d hd
      rw [← Literal.guard_not]
      exact mem_of_mem_guardedBy hd

end DecisionTree

/-- The clauses of a formula's tree, by the value that the pivot gets. -/
theorem Formula.mem_clauseSet_decisionTree {f : Formula} {r : Reading} {v : Variable}
    {cs : SortedSet Clause} {c : Clause} (h : f.pivot = some v)
    (hcs : f.decisionTree.clauseSet r = .clauses cs) :
    c ∈ cs ↔ ∃ b, c ∈ DecisionTree.guardedBy (.guard r v b) r
      ((f.substitute v b).decisionTree.clauseSet r) := by
  rw [decisionTree_of_pivot_some h, DecisionTree.clauseSet_branch] at hcs
  rw [← DecisionTree.eq_of_collapse_eq_clauses hcs, SortedSet.mem_union, Bool.exists_bool]

end Propositional
