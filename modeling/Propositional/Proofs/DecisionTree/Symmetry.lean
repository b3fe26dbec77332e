import Propositional.Proofs.DecisionTree.Branching
import Propositional.Proofs.UnitPropagation.Symmetry

/-!
# Collecting clauses commutes with symmetries of the literals

The clauses of a node are put together from those of its branches by adding a
guard, by union, and by the test for two opposite units. A symmetry of the
literals passes through all three, also when it goes over to another reading:
then it comes with the function of truth values that takes the identity of the
one reading, and no other value, to the identity of the other. So if the images
of both branches are the clause sets of two other trees, and the images of the
guards are the guards of those, the image of the node is the clause set of the
node above them.
-/

set_option autoImplicit false

namespace Propositional

namespace LiteralSymmetry

variable {σ : LiteralSymmetry} {v w : Variable}

/-- The two unit clauses of a variable go to those of another one. -/
theorem clauses_opposite_units (hw : (σ.toFun (.positive v)).var = w) :
    σ.clauses ({{.positive v}} ∪ {{.negative v}}) = {{.positive w}} ∪ {{.negative w}} := by
  have himage : σ.clauses ({{.positive v}} ∪ {{.negative v}}) =
      {{σ.toFun (.positive v)}} ∪ {{(σ.toFun (.positive v)).negate}} := by
    rw [← σ.map_negate]
    exact SortedSet.map_union
  rw [himage]
  generalize σ.toFun (.positive v) = l at hw
  obtain ⟨u, negated⟩ := l
  obtain rfl : u = w := hw
  cases negated with
  | false => rfl
  | true => exact SortedSet.union_comm

theorem clauses_eq_opposite_units_iff (cs : SortedSet Clause)
    (hw : (σ.toFun (.positive v)).var = w) :
    σ.clauses cs = {{.positive w}} ∪ {{.negative w}} ↔
      cs = {{.positive v}} ∪ {{.negative v}} := by
  rw [← clauses_opposite_units hw]
  exact clauses_injective.eq_iff

end LiteralSymmetry

namespace DecisionTree

variable {σ : LiteralSymmetry} {t : Bool → Bool} {r s : Reading} {v w : Variable}

def Carries (t : Bool → Bool) (r s : Reading) : Prop := ∀ b, t b = s.identity ↔ b = r.identity

theorem Carries.identity (h : Carries t r s) : t r.identity = s.identity := (h _).mpr rfl

theorem Carries.absorbing (h : Carries t r s) : t r.absorbing = s.absorbing := by
  refine (s.eq_identity_or_absorbing _).resolve_left fun hid => ?_
  exact r.identity_ne_absorbing ((h _).mp hid).symm

theorem guardedBy_clauseSet (h : Carries t r s) (l : Literal) (cs : ClauseSet) :
    guardedBy (σ.toFun l) s (σ.clauseSet t cs) = σ.clauses (guardedBy l r cs) := by
  cases cs with
  | const b =>
    rw [LiteralSymmetry.clauseSet, guardedBy, guardedBy]
    by_cases hb : b = r.identity
    · rw [if_pos ((h b).mpr hb), if_pos hb]
      rfl
    · rw [if_neg (mt (h b).mp hb), if_neg hb]
      rfl
  | clauses cs =>
    rw [LiteralSymmetry.clauseSet, guardedBy, guardedBy, LiteralSymmetry.clauses,
      LiteralSymmetry.clauses, SortedSet.map_map, SortedSet.map_map]
    exact SortedSet.map_congr fun c _ => (SortedSet.map_insert l).symm

theorem collapse_clauseSet (h : Carries t r s) (hw : (σ.toFun (.positive v)).var = w)
    (cs : SortedSet Clause) :
    collapse w s (σ.clauses cs) = σ.clauseSet t (collapse v r cs) := by
  have hempty : σ.clauses cs = ∅ ↔ cs = ∅ := SortedSet.map_eq_empty_iff
  have hunits := LiteralSymmetry.clauses_eq_opposite_units_iff cs hw
  rw [collapse, collapse]
  by_cases he : cs = ∅
  · rw [if_pos (hempty.mpr he), if_pos he, LiteralSymmetry.clauseSet, h.identity]
  rw [if_neg (mt hempty.mp he), if_neg he]
  by_cases hu : cs = {{.positive v}} ∪ {{.negative v}}
  · rw [if_pos (hunits.mpr hu), if_pos hu, LiteralSymmetry.clauseSet, h.absorbing]
  · rw [if_neg (mt hunits.mp hu), if_neg hu, LiteralSymmetry.clauseSet]

/-- The step from the branches to the node. -/
theorem clauseSet_branch_image {low high low' high' : DecisionTree} (h : Carries t r s)
    (hguard : ∀ b, Literal.guard s w b = σ.toFun (.guard r v b))
    (hlow : low'.clauseSet s = σ.clauseSet t (low.clauseSet r))
    (hhigh : high'.clauseSet s = σ.clauseSet t (high.clauseSet r)) :
    (branch w low' high').clauseSet s = σ.clauseSet t ((branch v low high).clauseSet r) := by
  have hw : (σ.toFun (.positive v)).var = w := by
    have hpositive : Literal.guard r v r.absorbing = .positive v := if_pos rfl
    rw [← hpositive, ← hguard, Literal.guard_var]
  rw [clauseSet_branch, clauseSet_branch, hguard, hguard, hlow, hhigh, guardedBy_clauseSet h,
    guardedBy_clauseSet h, ← collapse_clauseSet h hw]
  exact congrArg (collapse w s) SortedSet.map_union.symm

end DecisionTree

end Propositional
