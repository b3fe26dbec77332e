import Propositional.Formula.Order
import Propositional.Proofs.Formula.Meaning

/-!
# Building on canonical formulas

What building a binary node with simplification can do is said once: one operand
collapses by two rows of the truth table, or the node cannot be simplified. So
nodes built on canonical operands are canonical, and canonical forms and results
of substitution are canonical throughout. On canonical formulas negation undoes
itself, and substitution rebuilds every node, also those it keeps. Simplifying a
node before or after its operands are made canonical gives the same formula.
-/

set_option autoImplicit false

namespace Propositional.Formula

variable {c : Connective} {f l r : Formula}

theorem collapse_const (g : Bool → Bool) (b : Bool) :
    (const b).collapse (g false) (g true) = const (g b) := by
  rw [collapse]
  cases hfalse : g false <;> cases htrue : g true <;> cases b <;>
    simp [negate, hfalse, htrue]

theorem combine_const_left (a : Bool) :
    combine c (const a) r = r.collapse (c.eval a false) (c.eval a true) := by
  cases h : r.asConst? with
  | none => rw [combine, h, asConst?]
  | some b =>
    rw [asConst?_eq_some_iff.mp h]
    exact (collapse_const (c.eval a) b).symm

theorem combine_const_right (b : Bool) :
    combine c l (const b) = l.collapse (c.eval false b) (c.eval true b) := by
  cases h : l.asConst? with
  | none => rw [combine, h, asConst?]
  | some a =>
    rw [asConst?_eq_some_iff.mp h]
    exact (collapse_const (c.eval · b) a).symm

theorem combine_self : combine c f f = f.collapse (c.eval false false) (c.eval true true) := by
  cases h : f.asConst? with
  | none => rw [combine, h, if_pos rfl]
  | some a =>
    rw [asConst?_eq_some_iff.mp h]
    exact (collapse_const (fun a => c.eval a a) a).symm

theorem combine_of_isComplement (hl : l.isConst = false) (hr : r.isConst = false)
    (h : l.IsComplement r) :
    combine c l r = l.collapse (c.eval false true) (c.eval true false) := by
  rw [combine, asConst?_eq_none_iff.mpr hl, asConst?_eq_none_iff.mpr hr]
  simp only [if_neg h.ne, if_pos h]

/-- What building a binary node can do. -/
theorem combine_cases (c : Connective) (l r : Formula) :
    (∃ a, l = const a ∧ combine c l r = r.collapse (c.eval a false) (c.eval a true)) ∨
    (∃ b, r = const b ∧ combine c l r = l.collapse (c.eval false b) (c.eval true b)) ∨
    (l = r ∧ combine c l r = l.collapse (c.eval false false) (c.eval true true)) ∨
    (l.IsComplement r ∧ combine c l r = l.collapse (c.eval false true) (c.eval true false)) ∨
    ((binary c l r).Irreducible ∧ combine c l r = binary c l r) := by
  by_cases hl : l.isConst = true
  · obtain ⟨a, rfl⟩ := isConst_iff.mp hl
    exact .inl ⟨a, rfl, combine_const_left a⟩
  by_cases hr : r.isConst = true
  · obtain ⟨b, rfl⟩ := isConst_iff.mp hr
    exact .inr (.inl ⟨b, rfl, combine_const_right b⟩)
  rw [Bool.not_eq_true] at hl hr
  by_cases heq : l = r
  · subst heq
    exact .inr (.inr (.inl ⟨rfl, combine_self⟩))
  by_cases hc : l.IsComplement r
  · exact .inr (.inr (.inr (.inl ⟨hc, combine_of_isComplement hl hr hc⟩)))
  · have hirr : (binary c l r).Irreducible := ⟨hl, hr, heq, hc⟩
    exact .inr (.inr (.inr (.inr ⟨hirr, combine_of_irreducible hirr⟩)))

theorem Canonical.irreducible (h : f.Canonical) : f.Irreducible := by
  cases f with
  | const b => trivial
  | var v => trivial
  | not f => exact h.2
  | binary c l r => exact h.2.2

/-- Constants are the canonical formulas without variables. -/
theorem Canonical.pivot_eq_none_iff (h : f.Canonical) : f.pivot = none ↔ f.isConst = true := by
  induction f with
  | const b => simp [pivot, isConst]
  | var v => simp [pivot, isConst]
  | not f ih =>
    obtain ⟨hf, hconst, -⟩ := h
    have hpivot : f.pivot ≠ none := by simp [ih hf, hconst]
    simpa [pivot, isConst] using hpivot
  | binary c l r ihl _ =>
    obtain ⟨hl, -, hconst, -⟩ := h
    have hpivot : l.pivot ≠ none := by simp [ihl hl, hconst]
    simp [pivot, isConst, hpivot]

theorem Canonical.eq_const_of_vars (h : f.Canonical) (hvars : f.vars = ∅)
    (value : Variable → Bool) : f = const (f.eval value) := by
  have hnone : f.occurrences = [] :=
    List.eq_nil_iff_forall_not_mem.mpr fun v hv =>
      SortedSet.ne_empty_of_mem (mem_vars.mpr hv) hvars
  obtain ⟨b, rfl⟩ := isConst_iff.mp (h.pivot_eq_none_iff.mp (Formula.pivot_eq_none_iff.mpr hnone))
  rfl

theorem canonical_negate (h : f.Canonical) : f.negate.Canonical := by
  cases f with
  | const b => trivial
  | var v => exact ⟨trivial, rfl, rfl⟩
  | not f => exact h.1
  | binary c l r => exact ⟨h, rfl, rfl⟩

theorem canonical_collapse (x y : Bool) (h : f.Canonical) : (f.collapse x y).Canonical := by
  rw [collapse]
  split
  · trivial
  · split
    · exact canonical_negate h
    · exact h

theorem canonical_combine (c : Connective) (hl : l.Canonical) (hr : r.Canonical) :
    (combine c l r).Canonical := by
  rcases combine_cases c l r with ⟨a, -, h⟩ | ⟨b, -, h⟩ | ⟨-, h⟩ | ⟨-, h⟩ | ⟨hirr, h⟩ <;> rw [h]
  · exact canonical_collapse _ _ hr
  · exact canonical_collapse _ _ hl
  · exact canonical_collapse _ _ hl
  · exact canonical_collapse _ _ hl
  · exact ⟨hl, hr, hirr⟩

theorem canonical_canonicalize (f : Formula) : f.canonicalize.Canonical := by
  induction f with
  | const b => trivial
  | var v => trivial
  | not f ih =>
    rw [canonicalize_not]
    exact canonical_negate ih
  | binary c l r ihl ihr =>
    rw [canonicalize_binary]
    exact canonical_combine c ihl ihr

theorem canonicalize_eq_self (h : f.Canonical) : f.canonicalize = f := by
  induction f with
  | const b => rfl
  | var v => rfl
  | not f ih => rw [canonicalize_not, ih h.1, negate_of_irreducible h.2]
  | binary c l r ihl ihr =>
    rw [canonicalize_binary, ihl h.1, ihr h.2.1, combine_of_irreducible h.2.2]

/-- Only a stack of negations and a negated constant keep negation from undoing
itself. -/
theorem negate_negate (h : f.Irreducible) : f.negate.negate = f := by
  cases f with
  | const b => rw [negate, negate, Bool.not_not]
  | var v => rfl
  | not f => exact negate_of_irreducible h
  | binary c l r => rfl

theorem isConst_negate (h : f.Irreducible) : f.negate.isConst = f.isConst := by
  cases f with
  | const b => rfl
  | var v => rfl
  | not f => exact h.1
  | binary c l r => rfl

theorem isComplement_negate (h : f.isConst = false) : f.IsComplement f.negate := by
  cases f with
  | const b => cases h
  | var v => exact .inr rfl
  | not f => exact .inl rfl
  | binary c l r => exact .inr rfl

theorem combine_negate_right (h : f.Irreducible) :
    combine c f f.negate = f.collapse (c.eval false true) (c.eval true false) := by
  cases hconst : f.isConst with
  | true =>
    obtain ⟨b, rfl⟩ := isConst_iff.mp hconst
    exact (collapse_const (fun a => c.eval a !a) b).symm
  | false =>
    have hneg : f.negate.isConst = false := (isConst_negate h).trans hconst
    exact combine_of_isComplement hconst hneg (isComplement_negate hconst)

theorem substitute_not_of_irreducible (h : (not f).Irreducible) (v : Variable) (b : Bool) :
    (not f).substitute v b = (f.substitute v b).negate := by
  by_cases hv : v ∈ f.occurrences
  · exact substitute_not_of_mem hv b
  · have hnot : v ∉ (not f).occurrences := hv
    rw [substitute_eq_self hnot, substitute_eq_self hv, negate_of_irreducible h]

theorem substitute_binary_of_irreducible (h : (binary c l r).Irreducible) (v : Variable)
    (b : Bool) :
    (binary c l r).substitute v b = combine c (l.substitute v b) (r.substitute v b) := by
  by_cases hv : v ∈ (binary c l r).occurrences
  · exact substitute_binary_of_mem hv b
  · have hl : v ∉ l.occurrences := fun hl => hv (List.mem_append_left _ hl)
    have hr : v ∉ r.occurrences := fun hr => hv (List.mem_append_right _ hr)
    rw [substitute_eq_self hv, substitute_eq_self hl, substitute_eq_self hr,
      combine_of_irreducible h]

theorem canonical_substitute (h : f.Canonical) (v : Variable) (b : Bool) :
    (f.substitute v b).Canonical := by
  induction f with
  | const a => trivial
  | var w =>
    rw [substitute, replace?]
    split <;> trivial
  | not f ih =>
    rw [substitute_not_of_irreducible h.2]
    exact canonical_negate (ih h.1)
  | binary c l r ihl ihr =>
    rw [substitute_binary_of_irreducible h.2.2]
    exact canonical_combine c (ihl h.1) (ihr h.2.1)

/-- Substitution and negation may be exchanged. -/
theorem substitute_negate (h : f.Canonical) (v : Variable) (b : Bool) :
    f.negate.substitute v b = (f.substitute v b).negate := by
  cases f with
  | const a => rfl
  | var w => exact substitute_not_of_irreducible ⟨rfl, rfl⟩ v b
  | not f =>
    have hsub : (f.substitute v b).Canonical := canonical_substitute h.1 v b
    rw [substitute_not_of_irreducible h.2, negate_negate hsub.irreducible]
    rfl
  | binary c l r => exact substitute_not_of_irreducible ⟨rfl, rfl⟩ v b

theorem canonicalize_negate (f : Formula) : f.negate.canonicalize = f.canonicalize.negate := by
  cases f with
  | const b => rfl
  | var v => exact canonicalize_not _
  | not f =>
    rw [canonicalize_not, negate_negate (canonical_canonicalize f).irreducible]
    rfl
  | binary c l r => exact canonicalize_not _

theorem canonicalize_collapse (x y : Bool) (f : Formula) :
    (f.collapse x y).canonicalize = f.canonicalize.collapse x y := by
  rw [collapse, collapse]
  split
  · rfl
  · split
    · exact canonicalize_negate f
    · rfl

theorem IsComplement.canonicalize_eq_negate (h : l.IsComplement r) :
    r.canonicalize = l.canonicalize.negate := by
  rcases h with rfl | rfl
  · rw [canonicalize_not, negate_negate (canonical_canonicalize r).irreducible]
  · exact canonicalize_not l

/-- A node may be simplified before its operands are. -/
theorem canonicalize_combine (c : Connective) (l r : Formula) :
    (combine c l r).canonicalize = combine c l.canonicalize r.canonicalize := by
  rcases combine_cases c l r with
    ⟨a, rfl, h⟩ | ⟨b, rfl, h⟩ | ⟨rfl, h⟩ | ⟨hc, h⟩ | ⟨-, h⟩ <;> rw [h]
  · rw [canonicalize_collapse]
    exact (combine_const_left a).symm
  · rw [canonicalize_collapse]
    exact (combine_const_right b).symm
  · rw [canonicalize_collapse, combine_self]
  · rw [canonicalize_collapse, hc.canonicalize_eq_negate,
      combine_negate_right (canonical_canonicalize l).irreducible]
  · exact canonicalize_binary c l r

end Propositional.Formula
