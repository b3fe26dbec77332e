import Mathlib.Logic.Function.Basic
import Propositional.Formula.Canonical
import Propositional.Formula.Evaluation
import Propositional.Formula.Substitution

/-!
# The meaning of built, canonical and substituted formulas

Simplification is invisible to evaluation: a node built with simplification
has the value of the plain node, so the canonical form has the value of the
formula, and substitution evaluates the formula with one variable overridden.
None of them brings in a variable, and a substituted variable is gone.
-/

set_option autoImplicit false

namespace Propositional.Formula

variable {value : Variable → Bool}

@[simp] theorem eval_negate (f : Formula) : f.negate.eval value = !f.eval value := by
  cases f <;> simp [negate, eval]

theorem eval_collapse (g : Bool → Bool) (f : Formula) :
    (f.collapse (g false) (g true)).eval value = g (f.eval value) := by
  rw [collapse]
  cases hfalse : g false <;> cases htrue : g true <;> cases hf : f.eval value <;>
    simp [eval, hfalse, htrue, hf]

theorem IsComplement.eval_eq_not {f g : Formula} (h : f.IsComplement g) :
    g.eval value = !f.eval value := by
  rcases h with rfl | rfl <;> simp [eval]

/-- A node built with simplification has the value of the plain node. -/
@[simp] theorem eval_combine (c : Connective) (l r : Formula) :
    (combine c l r).eval value = c.eval (l.eval value) (r.eval value) := by
  rw [combine]
  split
  · rename_i a b ha hb
    rw [asConst?_eq_some_iff.mp ha, asConst?_eq_some_iff.mp hb, eval, eval, eval]
  · rename_i a ha _
    rw [asConst?_eq_some_iff.mp ha]
    exact eval_collapse (c.eval a) r
  · rename_i b _ hb
    rw [asConst?_eq_some_iff.mp hb]
    exact eval_collapse (c.eval · b) l
  · by_cases heq : l = r
    · rw [if_pos heq, heq]
      exact eval_collapse (fun a => c.eval a a) r
    · rw [if_neg heq]
      by_cases hc : l.IsComplement r
      · rw [if_pos hc, hc.eval_eq_not]
        exact eval_collapse (fun a => c.eval a !a) l
      · rw [if_neg hc, eval]

theorem vars_negate (f : Formula) : f.negate.vars = f.vars := by
  cases f <;> rfl

theorem vars_combine_subset (c : Connective) (l r : Formula) :
    (combine c l r).vars ⊆ l.vars ∪ r.vars := by
  intro v hv
  have hsub := (occurrences_combine_sublist c l r).subset (mem_vars.mp hv)
  simpa [mem_vars] using hsub

theorem canonicalize_not (f : Formula) : (not f).canonicalize = f.canonicalize.negate := by
  rw [canonicalize, canonicalize, canonicalize?]
  cases f.canonicalize? with
  | some g => rfl
  | none =>
    by_cases h : (not f).Irreducible
    · simp [h, negate_of_irreducible h]
    · simp [h]

theorem canonicalize_binary (c : Connective) (l r : Formula) :
    (binary c l r).canonicalize = combine c l.canonicalize r.canonicalize := by
  rw [canonicalize, canonicalize, canonicalize, canonicalize?]
  cases l.canonicalize? <;> cases r.canonicalize? <;> try rfl
  by_cases h : (binary c l r).Irreducible
  · simp [h, combine_of_irreducible h]
  · simp [h]

theorem eval_canonicalize (f : Formula) : f.canonicalize.eval value = f.eval value := by
  induction f with
  | const b => rfl
  | var v => rfl
  | not f ih => rw [canonicalize_not, eval_negate, ih, eval]
  | binary c l r ihl ihr => rw [canonicalize_binary, eval_combine, ihl, ihr, eval]

theorem vars_canonicalize_subset (f : Formula) : f.canonicalize.vars ⊆ f.vars := by
  induction f with
  | const b => exact fun v hv => hv
  | var w => exact fun v hv => hv
  | not f ih =>
    rw [canonicalize_not, vars_negate]
    exact ih
  | binary c l r ihl ihr =>
    intro v hv
    rw [canonicalize_binary] at hv
    have hmem := vars_combine_subset c l.canonicalize r.canonicalize v hv
    rw [SortedSet.mem_union] at hmem
    rw [vars, SortedSet.mem_union]
    exact hmem.imp (ihl v) (ihr v)

/-- A negation is rebuilt if the variable occurs below it and kept otherwise. -/
theorem substitute_not (f : Formula) (v : Variable) (b : Bool) :
    (not f).substitute v b = (f.substitute v b).negate ∨
      (not f).substitute v b = not (f.substitute v b) := by
  by_cases h : v ∈ f.occurrences
  · exact .inl (substitute_not_of_mem h b)
  · have hnot : v ∉ (not f).occurrences := h
    exact .inr (by rw [substitute_eq_self hnot, substitute_eq_self h])

theorem substitute_binary (c : Connective) (l r : Formula) (v : Variable) (b : Bool) :
    (binary c l r).substitute v b = combine c (l.substitute v b) (r.substitute v b) ∨
      (binary c l r).substitute v b = binary c (l.substitute v b) (r.substitute v b) := by
  by_cases h : v ∈ (binary c l r).occurrences
  · exact .inl (substitute_binary_of_mem h b)
  · have hl : v ∉ l.occurrences := fun hl => h (List.mem_append_left _ hl)
    have hr : v ∉ r.occurrences := fun hr => h (List.mem_append_right _ hr)
    exact .inr (by rw [substitute_eq_self h, substitute_eq_self hl, substitute_eq_self hr])

/-- Substituting is evaluating with the variable overridden. -/
theorem eval_substitute (f : Formula) (v : Variable) (b : Bool) :
    (f.substitute v b).eval value = f.eval (Function.update value v b) := by
  induction f with
  | const a => rfl
  | var w =>
    by_cases h : w = v
    · simp [substitute, replace?, h, eval]
    · simp [substitute, replace?, h, eval]
  | not f ih => rcases substitute_not f v b with h | h <;> simp [h, eval, ih]
  | binary c l r ihl ihr =>
    rcases substitute_binary c l r v b with h | h <;> simp [h, eval, ihl, ihr]

theorem mem_vars_substitute {f : Formula} {v w : Variable} {b : Bool}
    (h : w ∈ (f.substitute v b).vars) : w ≠ v ∧ w ∈ f.vars := by
  induction f with
  | const a => simp [substitute, replace?, vars] at h
  | var u =>
    by_cases hu : u = v
    · simp [substitute, replace?, hu, vars] at h
    · have hw : w = u := by simpa [substitute, replace?, hu, vars] using h
      exact ⟨hw ▸ hu, by simp [vars, hw]⟩
  | not f ih =>
    apply ih
    rcases substitute_not f v b with hs | hs
    · rwa [hs, vars_negate] at h
    · rwa [hs] at h
  | binary c l r ihl ihr =>
    have hmem : w ∈ (l.substitute v b).vars ∪ (r.substitute v b).vars := by
      rcases substitute_binary c l r v b with hs | hs
      · rw [hs] at h
        exact vars_combine_subset _ _ _ w h
      · rwa [hs] at h
    rw [vars, SortedSet.mem_union]
    rcases SortedSet.mem_union.mp hmem with hl | hr
    · exact ⟨(ihl hl).1, .inl (ihl hl).2⟩
    · exact ⟨(ihr hr).1, .inr (ihr hr).2⟩

end Propositional.Formula
