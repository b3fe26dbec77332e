import Propositional.Formula.Occurrence
import Propositional.Formula.Simplify

/-!
# Substituting a truth value for a variable

Every occurrence of the variable is replaced by a constant, and the nodes
above an occurrence are built again with simplification. Subtrees that do not
mention the variable are kept node for node, so a formula without the variable
is returned as it is. Substitution for a variable that occurs leaves strictly
fewer occurrences, which is why expanding a formula pivot by pivot ends.
-/

set_option autoImplicit false

namespace Propositional.Formula

def replace? (v : Variable) (b : Bool) : Formula → Option Formula
  | const _ => none
  | var w => if w = v then some (const b) else none
  | not f => (f.replace? v b).map negate
  | binary c l r =>
    match l.replace? v b, r.replace? v b with
    | none, none => none
    | l', r' => some (combine c (l'.getD l) (r'.getD r))

def substitute (f : Formula) (v : Variable) (b : Bool) : Formula := (f.replace? v b).getD f

theorem occurrences_negate (f : Formula) : f.negate.occurrences = f.occurrences := by
  cases f <;> rfl

theorem occurrences_collapse_sublist (x y : Bool) (f : Formula) :
    List.Sublist (f.collapse x y).occurrences f.occurrences := by
  rw [collapse]
  split
  · exact List.nil_sublist _
  · split
    · cases f <;> exact List.Sublist.refl _
    · exact List.Sublist.refl _

/-- Simplification drops occurrences and neither adds nor moves one. -/
theorem occurrences_combine_sublist (c : Connective) (l r : Formula) :
    List.Sublist (combine c l r).occurrences (l.occurrences ++ r.occurrences) := by
  have hl (x y : Bool) :
      List.Sublist (l.collapse x y).occurrences (l.occurrences ++ r.occurrences) :=
    (occurrences_collapse_sublist x y l).trans (List.sublist_append_left _ _)
  have hr (x y : Bool) :
      List.Sublist (r.collapse x y).occurrences (l.occurrences ++ r.occurrences) :=
    (occurrences_collapse_sublist x y r).trans (List.sublist_append_right _ _)
  rw [combine]
  split
  · exact List.nil_sublist _
  · exact hr _ _
  · exact hl _ _
  · split
    · exact hl _ _
    · split
      · exact hl _ _
      · exact List.Sublist.refl _

theorem replace?_eq_none_iff {v : Variable} {b : Bool} {f : Formula} :
    f.replace? v b = none ↔ v ∉ f.occurrences := by
  induction f with
  | const a => simp [replace?, occurrences]
  | var w => simp [replace?, occurrences, eq_comm]
  | not f ih => simp [replace?, occurrences, ih]
  | binary c l r ihl ihr =>
    rw [occurrences, List.mem_append, not_or, ← ihl, ← ihr, replace?]
    cases l.replace? v b <;> cases r.replace? v b <;> simp

theorem substitute_eq_self {v : Variable} {f : Formula} (h : v ∉ f.occurrences) (b : Bool) :
    f.substitute v b = f := by
  rw [substitute, replace?_eq_none_iff.mpr h, Option.getD_none]

theorem substitute_self (v : Variable) (b : Bool) : (var v).substitute v b = const b := by
  simp [substitute, replace?]

theorem substitute_not_of_mem {v : Variable} {f : Formula} (h : v ∈ f.occurrences) (b : Bool) :
    (not f).substitute v b = (f.substitute v b).negate := by
  rw [substitute, substitute, replace?]
  cases hf : f.replace? v b with
  | some g => rfl
  | none => exact absurd h (replace?_eq_none_iff.mp hf)

theorem substitute_binary_of_mem {v : Variable} {c : Connective} {l r : Formula}
    (h : v ∈ (binary c l r).occurrences) (b : Bool) :
    (binary c l r).substitute v b = combine c (l.substitute v b) (r.substitute v b) := by
  rw [substitute, substitute, substitute, replace?]
  cases hl : l.replace? v b with
  | some l' => cases r.replace? v b <;> rfl
  | none =>
    cases hr : r.replace? v b with
    | some r' => rfl
    | none =>
      rcases List.mem_append.mp h with h | h
      · exact absurd h (replace?_eq_none_iff.mp hl)
      · exact absurd h (replace?_eq_none_iff.mp hr)

theorem occurrences_substitute_lt {v : Variable} {f : Formula} (b : Bool)
    (h : v ∈ f.occurrences) :
    (f.substitute v b).occurrences.length < f.occurrences.length := by
  induction f with
  | const a => cases h
  | var w =>
    obtain rfl : v = w := List.mem_singleton.mp h
    rw [substitute_self]
    exact Nat.zero_lt_one
  | not f ih =>
    have hmem : v ∈ f.occurrences := h
    rw [substitute_not_of_mem hmem, occurrences_negate]
    exact ih hmem
  | binary c l r ihl ihr =>
    have hle {g : Formula} (ih : v ∈ g.occurrences →
        (g.substitute v b).occurrences.length < g.occurrences.length) :
        (g.substitute v b).occurrences.length ≤ g.occurrences.length := by
      by_cases hg : v ∈ g.occurrences
      · exact Nat.le_of_lt (ih hg)
      · exact Nat.le_of_eq (by rw [substitute_eq_self hg])
    have hcombine :=
      (occurrences_combine_sublist c (l.substitute v b) (r.substitute v b)).length_le
    have hlle := hle ihl
    have hrle := hle ihr
    rw [substitute_binary_of_mem h, occurrences, List.length_append]
    rw [List.length_append] at hcombine
    rcases List.mem_append.mp h with hl | hr
    · have := ihl hl
      omega
    · have := ihr hr
      omega

end Propositional.Formula
