import Propositional.Proofs.Formula.Canonical

/-!
# Sizes of simplified formulas

What an operand collapses to has at most one node more than the operand. A
binary node that can be simplified loses its other operand, which makes up for
it, so a simplified node is smaller than the plain one. Canonical forms and
results of substitution are therefore never larger than the formula, and as
large only where nothing was simplified.
-/

set_option autoImplicit false

namespace Propositional.Formula

variable {c : Connective} {f l r : Formula} {v : Variable}

theorem size_negate_lt (h : ¬(not f).Irreducible) : f.negate.size < (not f).size := by
  cases f with
  | const b => simp [negate, size]
  | var v => exact absurd ⟨rfl, rfl⟩ h
  | not f =>
    simp only [negate, size]
    omega
  | binary c l r => exact absurd ⟨rfl, rfl⟩ h

theorem size_negate_le (f : Formula) : f.negate.size ≤ f.size + 1 := by
  by_cases h : (not f).Irreducible
  · exact Nat.le_of_eq (congrArg size (negate_of_irreducible h))
  · exact Nat.le_of_lt (size_negate_lt h)

theorem size_collapse_le (x y : Bool) (f : Formula) : (f.collapse x y).size ≤ f.size + 1 := by
  rw [collapse]
  split
  · simp [size]
  · split
    · exact size_negate_le f
    · omega

theorem size_combine_lt (h : ¬(binary c l r).Irreducible) :
    (combine c l r).size < (binary c l r).size := by
  have hl (x y : Bool) : (l.collapse x y).size < (binary c l r).size := by
    have := size_collapse_le x y l
    have := r.size_pos
    simp only [size]
    omega
  have hr (x y : Bool) : (r.collapse x y).size < (binary c l r).size := by
    have := size_collapse_le x y r
    have := l.size_pos
    simp only [size]
    omega
  rcases combine_cases c l r with ⟨a, -, hc⟩ | ⟨b, -, hc⟩ | ⟨-, hc⟩ | ⟨-, hc⟩ | ⟨hirr, -⟩
  · exact hc ▸ hr _ _
  · exact hc ▸ hl _ _
  · exact hc ▸ hl _ _
  · exact hc ▸ hl _ _
  · exact absurd hirr h

theorem size_combine_le (c : Connective) (l r : Formula) :
    (combine c l r).size ≤ l.size + r.size + 1 := by
  by_cases h : (binary c l r).Irreducible
  · exact Nat.le_of_eq (congrArg size (combine_of_irreducible h))
  · exact Nat.le_of_lt (size_combine_lt h)

theorem size_canonicalize_lt (h : ¬f.Canonical) : f.canonicalize.size < f.size := by
  induction f with
  | const b => exact absurd trivial h
  | var v => exact absurd trivial h
  | not f ih =>
    rw [canonicalize_not]
    by_cases hf : f.Canonical
    · rw [canonicalize_eq_self hf]
      exact size_negate_lt fun hirr => h ⟨hf, hirr⟩
    · have := ih hf
      have := size_negate_le f.canonicalize
      rw [size]
      omega
  | binary c l r ihl ihr =>
    rw [canonicalize_binary]
    have hle := size_combine_le c l.canonicalize r.canonicalize
    by_cases hl : l.Canonical
    · rw [canonicalize_eq_self hl] at hle ⊢
      by_cases hr : r.Canonical
      · rw [canonicalize_eq_self hr]
        exact size_combine_lt fun hirr => h ⟨hl, hr, hirr⟩
      · have := ihr hr
        rw [size]
        omega
    · have hllt := ihl hl
      have hrle : r.canonicalize.size ≤ r.size := by
        by_cases hr : r.Canonical
        · exact Nat.le_of_eq (congrArg size (canonicalize_eq_self hr))
        · exact Nat.le_of_lt (ihr hr)
      rw [size]
      omega

theorem size_substitute_le_of_lt {b : Bool}
    (h : v ∈ f.occurrences → f ≠ var v → (f.substitute v b).size < f.size) :
    (f.substitute v b).size ≤ f.size := by
  by_cases hv : v ∈ f.occurrences
  · by_cases hf : f = var v
    · rw [hf, substitute_self]
      exact Nat.le_refl 1
    · exact Nat.le_of_lt (h hv hf)
  · exact Nat.le_of_eq (congrArg size (substitute_eq_self hv b))

/-- Only the variable itself is as large as the constant in its place. -/
theorem size_substitute_lt (h : v ∈ f.occurrences) (hne : f ≠ var v) (b : Bool) :
    (f.substitute v b).size < f.size := by
  induction f with
  | const a => cases h
  | var w =>
    obtain rfl : v = w := List.mem_singleton.mp h
    exact absurd rfl hne
  | not f ih =>
    have hmem : v ∈ f.occurrences := h
    rw [substitute_not_of_mem hmem]
    by_cases hf : f = var v
    · rw [hf, substitute_self]
      simp [negate, size]
    · have := ih hmem hf
      have := size_negate_le (f.substitute v b)
      rw [size]
      omega
  | binary c l r ihl ihr =>
    rw [substitute_binary_of_mem h]
    have hle := size_combine_le c (l.substitute v b) (r.substitute v b)
    have hlle := size_substitute_le_of_lt ihl
    have hrle := size_substitute_le_of_lt ihr
    -- A bare variable among the operands does not shrink, but it leaves a constant operand.
    by_cases hl : l = var v
    · have := size_collapse_le (c.eval b false) (c.eval b true) (r.substitute v b)
      rw [hl, substitute_self, combine_const_left, size, size]
      omega
    by_cases hr : r = var v
    · have := size_collapse_le (c.eval false b) (c.eval true b) (l.substitute v b)
      rw [hr, substitute_self, combine_const_right, size, size]
      omega
    rw [size]
    rcases List.mem_append.mp h with h | h
    · have := ihl h hl
      omega
    · have := ihr h hr
      omega

theorem size_substitute_le (f : Formula) (v : Variable) (b : Bool) :
    (f.substitute v b).size ≤ f.size :=
  size_substitute_le_of_lt fun h hne => size_substitute_lt h hne b

end Propositional.Formula
