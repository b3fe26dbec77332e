import Propositional.DecisionTree
import Propositional.Proofs.ClauseSet.Meaning

/-!
# The meaning of decision trees and of their clause sets

The decision tree of a formula has its value, tests no other variables and
tests none of them twice on a way to a leaf, for substitution removes the
pivot. The clause set of a tree has the value of the tree in both readings. A
tree that tests no variable twice has a constant clause set exactly when it has
one value everywhere: both branches have that value too, so the constant
arrives from the leaves in the two shapes that collapse.
-/

set_option autoImplicit false

namespace Propositional

namespace DecisionTree

def vars : DecisionTree → SortedSet Variable
  | leaf _ => ∅
  | branch v low high => insert v (low.vars ∪ high.vars)

def ReadOnce : DecisionTree → Prop
  | leaf _ => True
  | branch v low high => v ∉ low.vars ∧ v ∉ high.vars ∧ low.ReadOnce ∧ high.ReadOnce

theorem root_mem_vars (v : Variable) (low high : DecisionTree) : v ∈ (branch v low high).vars := by
  simp [vars]

theorem vars_low_subset (v : Variable) (low high : DecisionTree) :
    low.vars ⊆ (branch v low high).vars :=
  fun w hw => by simp [vars, hw]

theorem vars_high_subset (v : Variable) (low high : DecisionTree) :
    high.vars ⊆ (branch v low high).vars :=
  fun w hw => by simp [vars, hw]

variable {r : Reading} {value : Variable → Bool}

theorem eval_congr {value' : Variable → Bool} {t : DecisionTree}
    (h : ∀ v ∈ t.vars, value v = value' v) : t.eval value = t.eval value' := by
  induction t with
  | leaf b => rfl
  | branch v low high ihl ihh =>
    have hv : value v = value' v := h v (root_mem_vars v low high)
    have hl : ∀ w ∈ low.vars, value w = value' w := fun w hw =>
      h w (vars_low_subset v low high w hw)
    have hh : ∀ w ∈ high.vars, value w = value' w := fun w hw =>
      h w (vars_high_subset v low high w hw)
    rw [eval, eval, hv, ihl hl, ihh hh]

theorem eval_update_of_not_mem {t : DecisionTree} {v : Variable} (b : Bool) (h : v ∉ t.vars) :
    t.eval (Function.update value v b) = t.eval value := by
  apply eval_congr
  intro w hw
  have hne : w ≠ v := fun hwv => h (hwv ▸ hw)
  exact Function.update_of_ne hne b value

/-- A branch with one value everywhere has two branches with that value. -/
theorem ReadOnce.eval_branches {v : Variable} {low high : DecisionTree} {b : Bool}
    (h : (branch v low high).ReadOnce) (hb : ∀ value, (branch v low high).eval value = b) :
    (∀ value, low.eval value = b) ∧ ∀ value, high.eval value = b := by
  obtain ⟨hlow, hhigh, -, -⟩ := h
  constructor
  · intro value
    rw [← eval_update_of_not_mem false hlow, ← hb (Function.update value v false)]
    simp [eval]
  · intro value
    rw [← eval_update_of_not_mem true hhigh, ← hb (Function.update value v true)]
    simp [eval]

@[simp] theorem guardedBy_identity (l : Literal) : guardedBy l r (.const r.identity) = ∅ := by
  rw [guardedBy, if_pos rfl]

@[simp] theorem guardedBy_absorbing (l : Literal) :
    guardedBy l r (.const r.absorbing) = {{l}} := by
  rw [guardedBy, if_neg r.identity_ne_absorbing.symm]

/-- A branch gives its guard alone if it has the absorbing value, and its
clauses with the guard if it has clauses. -/
theorem mem_guardedBy {l : Literal} {s : ClauseSet} {c : Clause} :
    c ∈ guardedBy l r s ↔
      (s = .const r.absorbing ∧ insert l ∅ = c) ∨
        ∃ cs, s = .clauses cs ∧ ∃ d ∈ cs, insert l d = c := by
  cases s with
  | const b =>
    rcases r.eq_identity_or_absorbing b with rfl | rfl
    · simp
    · simpa using eq_comm
  | clauses cs => simp [guardedBy]

theorem mem_of_mem_guardedBy {l : Literal} {s : ClauseSet} {c : Clause}
    (h : c ∈ guardedBy l r s) : l ∈ c := by
  rcases mem_guardedBy.mp h with ⟨-, rfl⟩ | ⟨cs, -, d, -, rfl⟩
  · exact SortedSet.mem_insert.mpr (.inl rfl)
  · exact SortedSet.mem_insert.mpr (.inl rfl)

theorem decided_guardedBy {l : Literal} {s : ClauseSet} :
    ClauseSet.Decided (guardedBy l r s) r value ↔
      l.eval value = r.absorbing ∧ s.eval r value = r.absorbing := by
  cases s with
  | const b =>
    rcases r.eq_identity_or_absorbing b with rfl | rfl
    · simp [ClauseSet.eval]
    · simp [ClauseSet.eval]
  | clauses cs =>
    rw [ClauseSet.eval_clauses_eq_absorbing_iff]
    simp only [guardedBy, ClauseSet.Decided, SortedSet.mem_map]
    constructor
    · rintro ⟨c, ⟨d, hd, rfl⟩, hdec⟩
      obtain ⟨hl, hd'⟩ := Clause.decides_insert.mp hdec
      exact ⟨hl, d, hd, hd'⟩
    · rintro ⟨hl, d, hd, hdec⟩
      exact ⟨_, ⟨d, hd, rfl⟩, Clause.decides_insert.mpr ⟨hl, hdec⟩⟩

theorem eval_collapse (v : Variable) (cs : SortedSet Clause) :
    (collapse v r cs).eval r value = (ClauseSet.clauses cs).eval r value := by
  rw [collapse]
  by_cases hempty : cs = ∅
  · rw [if_pos hempty, hempty]
    rfl
  rw [if_neg hempty]
  by_cases hboth : cs = {{Literal.positive v}} ∪ {{Literal.negative v}}
  · rw [if_pos hboth, hboth]
    apply Eq.symm
    rw [ClauseSet.eval, ClauseSet.eval_clauses_eq_absorbing_iff, ClauseSet.decided_union,
      ClauseSet.decided_unit, ClauseSet.decided_unit, Literal.eval_positive,
      Literal.eval_negative, Reading.not_eq_absorbing_iff]
    exact Classical.em _
  · rw [if_neg hboth]

theorem eval_clauseSet (t : DecisionTree) : (t.clauseSet r).eval r value = t.eval value := by
  induction t with
  | leaf b => rfl
  | branch v low high ihl ihh =>
    rw [clauseSet, eval_collapse]
    apply ClauseSet.eval_clauses_eq_of_decided_iff
    rw [ClauseSet.decided_union, decided_guardedBy, decided_guardedBy, eval]
    cases r <;> cases hv : value v <;> simp [Reading.absorbing, Reading.identity, hv, ihl, ihh]

theorem canonical_collapse {v : Variable} {cs : SortedSet Clause} (h : ∅ ∉ cs) :
    (collapse v r cs).Canonical := by
  rw [collapse]
  by_cases hempty : cs = ∅
  · simp [hempty, ClauseSet.Canonical]
  · rw [if_neg hempty]
    split
    · trivial
    · exact ⟨hempty, h⟩

theorem canonical_clauseSet (t : DecisionTree) : (t.clauseSet r).Canonical := by
  cases t with
  | leaf b => trivial
  | branch v low high =>
    apply canonical_collapse
    intro hempty
    rcases SortedSet.mem_union.mp hempty with h | h
    · exact SortedSet.not_mem_empty _ (mem_of_mem_guardedBy h)
    · exact SortedSet.not_mem_empty _ (mem_of_mem_guardedBy h)

theorem vars_guardedBy {l : Literal} {s : ClauseSet} {v : Variable}
    (h : v ∈ (ClauseSet.clauses (guardedBy l r s)).vars) : v = l.var ∨ v ∈ s.vars := by
  obtain ⟨c, hc, k, hk, rfl⟩ := ClauseSet.mem_vars_clauses.mp h
  rcases mem_guardedBy.mp hc with ⟨-, rfl⟩ | ⟨cs, rfl, d, hd, rfl⟩
  · left
    rw [insert_empty_eq, SortedSet.mem_singleton] at hk
    rw [hk]
  · rcases SortedSet.mem_insert.mp hk with rfl | hk
    · exact .inl rfl
    · exact .inr (ClauseSet.mem_vars_clauses.mpr ⟨d, hd, k, hk, rfl⟩)

theorem vars_collapse_subset (v : Variable) (cs : SortedSet Clause) :
    (collapse v r cs).vars ⊆ (ClauseSet.clauses cs).vars := by
  intro w hw
  rw [collapse] at hw
  split at hw
  · exact absurd hw (SortedSet.not_mem_empty w)
  · split at hw
    · exact absurd hw (SortedSet.not_mem_empty w)
    · exact hw

theorem vars_clauseSet_subset (t : DecisionTree) : (t.clauseSet r).vars ⊆ t.vars := by
  induction t with
  | leaf b => exact fun w hw => hw
  | branch v low high ihl ihh =>
    intro w hw
    have hchild (b : Bool) (h : w ∈ (if b then high.clauseSet r else low.clauseSet r).vars) :
        w ∈ low.vars ∪ high.vars := by
      cases b with
      | false => exact SortedSet.mem_union.mpr (.inl (ihl w h))
      | true => exact SortedSet.mem_union.mpr (.inr (ihh w h))
    rw [vars, SortedSet.mem_insert]
    rcases ClauseSet.mem_vars_union.mp (vars_collapse_subset v _ w hw) with h | h
    · exact (vars_guardedBy h).imp_right (hchild r.absorbing)
    · exact (vars_guardedBy h).imp_right (hchild r.identity)

/-- Branches with one truth value give that value. -/
theorem collapse_guardedBy_const (v : Variable) (b : Bool) :
    collapse v r (guardedBy (.positive v) r (.const b) ∪ guardedBy (.negative v) r (.const b)) =
      .const b := by
  rcases r.eq_identity_or_absorbing b with rfl | rfl
  · have hnone : (∅ ∪ ∅ : SortedSet Clause) = ∅ := rfl
    rw [guardedBy_identity, guardedBy_identity, hnone, collapse, if_pos rfl]
  · have hsome : ({{Literal.positive v}} ∪ {{Literal.negative v}} : SortedSet Clause) ≠ ∅ :=
      SortedSet.union_ne_empty (SortedSet.singleton_ne_empty _)
    rw [guardedBy_absorbing, guardedBy_absorbing, collapse, if_neg hsome, if_pos rfl]

theorem clauseSet_eq_const {t : DecisionTree} {b : Bool} (h : t.ReadOnce)
    (hb : ∀ value, t.eval value = b) : t.clauseSet r = .const b := by
  induction t with
  | leaf a => exact congrArg ClauseSet.const (hb fun _ => false)
  | branch v low high ihl ihh =>
    obtain ⟨hlow, hhigh⟩ := h.eval_branches hb
    have hl := ihl h.2.2.1 hlow
    have hh := ihh h.2.2.2 hhigh
    rw [clauseSet, hl, hh, ite_self, ite_self]
    exact collapse_guardedBy_const v b

theorem clauseSet_eq_const_iff {t : DecisionTree} {b : Bool} (h : t.ReadOnce) :
    t.clauseSet r = .const b ↔ ∀ value, t.eval value = b := by
  constructor
  · intro hconst value
    rw [← eval_clauseSet (r := r), hconst, ClauseSet.eval]
  · exact clauseSet_eq_const h

end DecisionTree

namespace Formula

theorem eval_decisionTree (f : Formula) (value : Variable → Bool) :
    f.decisionTree.eval value = f.eval value := by
  induction f using decisionTree.induct with
  | case1 f h =>
    have hnone : ∀ v ∈ f.vars, false = value v := by
      intro v hv
      rw [mem_vars, pivot_eq_none_iff.mp h] at hv
      exact absurd hv List.not_mem_nil
    rw [decisionTree_of_pivot_none h, DecisionTree.eval, eval_congr hnone]
  | case2 f v h _ ihl ihh =>
    rw [decisionTree_of_pivot_some h, DecisionTree.eval, ihl, ihh, eval_substitute,
      eval_substitute]
    have hsame := Function.update_eq_self v value
    cases hv : value v <;> rw [hv] at hsame <;> simp [hsame]

theorem vars_decisionTree_subset (f : Formula) : f.decisionTree.vars ⊆ f.vars := by
  induction f using decisionTree.induct with
  | case1 f h =>
    intro w hw
    rw [decisionTree_of_pivot_none h] at hw
    exact absurd hw (SortedSet.not_mem_empty w)
  | case2 f v h hv ihl ihh =>
    intro w hw
    rw [decisionTree_of_pivot_some h, DecisionTree.vars, SortedSet.mem_insert,
      SortedSet.mem_union] at hw
    rcases hw with rfl | hl | hh
    · exact mem_vars.mpr hv
    · exact (mem_vars_substitute (ihl w hl)).2
    · exact (mem_vars_substitute (ihh w hh)).2

/-- Substitution removes the pivot, so no branch below tests it again. -/
theorem readOnce_decisionTree (f : Formula) : f.decisionTree.ReadOnce := by
  induction f using decisionTree.induct with
  | case1 f h =>
    rw [decisionTree_of_pivot_none h]
    trivial
  | case2 f v h _ ihl ihh =>
    have hgone (b : Bool) : v ∉ (f.substitute v b).decisionTree.vars := fun hv =>
      (mem_vars_substitute (vars_decisionTree_subset _ v hv)).1 rfl
    rw [decisionTree_of_pivot_some h]
    exact ⟨hgone false, hgone true, ihl, ihh⟩

theorem clauseSet_decisionTree_eq_const_iff {f : Formula} {r : Reading} {b : Bool} :
    f.decisionTree.clauseSet r = .const b ↔ f.Constantly b := by
  rw [DecisionTree.clauseSet_eq_const_iff (readOnce_decisionTree f), constantly_iff]
  simp only [eval_decisionTree]

end Formula

end Propositional
