import Propositional.Proofs.Formula.Canonical
import Propositional.Proofs.Formula.Simplification

/-!
# Operands nested to the left

A list of formulas is joined by one connective from the left, and the nest of
the list has every node of this as it is. Once an operand has been added the
accumulated formula is headed by the connective, so it neither equals nor
opposes an operand that is not: only at the first two operands could building
with simplification do something else. The operands are read back off a nest
by going down its left side.
-/

set_option autoImplicit false

namespace Propositional.Formula

variable {c d : Connective} {b : Bool} {f g : Formula} {fs : List Formula} {v : Variable}

def nest (c : Connective) (b : Bool) : List Formula → Formula
  | [] => const b
  | f :: fs => fs.foldl (binary c) f

def operands (c : Connective) : Formula → List Formula
  | const b => [const b]
  | var v => [var v]
  | not f => [not f]
  | binary d l r => if d = c then l.operands c ++ [r] else [binary d l r]

theorem operands_of_isConnective (h : f.isConnective c = false) : f.operands c = [f] := by
  cases f with
  | const b => rfl
  | var v => rfl
  | not f => rfl
  | binary d l r =>
    rw [isConnective, beq_eq_false_iff_ne] at h
    rw [operands, if_neg h]

theorem operands_foldl (fs : List Formula) (f : Formula) :
    (fs.foldl (binary c) f).operands c = f.operands c ++ fs := by
  induction fs generalizing f with
  | nil => exact (List.append_nil _).symm
  | cons g fs ih => rw [List.foldl_cons, ih, operands, if_pos rfl, List.append_assoc]; rfl

theorem operands_nest (hne : fs ≠ []) (h : ∀ f ∈ fs, f.isConnective c = false) :
    (nest c b fs).operands c = fs := by
  cases fs with
  | nil => exact absurd rfl hne
  | cons f fs =>
    rw [nest, operands_foldl, operands_of_isConnective (h f List.mem_cons_self)]
    rfl

theorem isConnective_foldl (fs : List Formula) (h : f.isConnective c = true) :
    (fs.foldl (binary c) f).isConnective c = true := by
  induction fs generalizing f with
  | nil => exact h
  | cons g fs ih => exact ih (beq_self_eq_true c)

/-- A nest is its only operand or headed by the connective. -/
theorem nest_cases (c : Connective) (b : Bool) (hne : fs ≠ []) :
    (∃ f, fs = [f] ∧ nest c b fs = f) ∨ (nest c b fs).isConnective c = true := by
  match fs with
  | [] => exact absurd rfl hne
  | [f] => exact .inl ⟨f, rfl, rfl⟩
  | f :: g :: fs => exact .inr (isConnective_foldl fs (beq_self_eq_true c))

theorem mem_vars_nest {α : Type} {p : α → Formula} {xs : List α} :
    v ∈ (nest c b (xs.map p)).vars ↔ ∃ x ∈ xs, v ∈ (p x).vars := by
  cases xs with
  | nil => simp [nest, vars]
  | cons x xs => simp [nest, mem_vars, ← mentions_iff, mentions_foldl]

structure Operand (c : Connective) (f : Formula) : Prop where
  not_const : f.isConst = false
  not_joined : f.isConnective c = false
  not_negated : ∀ g, f = not g → g.isConnective c = false

theorem Operand.of_isConnective (h : f.isConnective d = true) (hne : d ≠ c) : Operand c f := by
  cases f with
  | binary e l r =>
    obtain rfl : e = d := beq_iff_eq.mp h
    exact ⟨rfl, beq_false_of_ne hne, fun g hg => by cases hg⟩
  | _ => cases h

theorem combine_neutral (h : ∀ a, c.eval b a = a) : combine c (const b) f = f := by
  rw [combine_const_left, collapse, h, h]
  rfl

theorem Operand.not_isComplement (hg : Operand c g) (hf : f.isConnective c = true) :
    ¬f.IsComplement g := by
  rintro (rfl | h)
  · cases hf
  · exact absurd hf (by simp [hg.not_negated f h])

theorem combine_of_joined (hf : f.isConnective c = true) (hg : Operand c g) :
    combine c f g = binary c f g := by
  apply combine_of_irreducible
  refine ⟨?_, hg.not_const, ?_, hg.not_isComplement hf⟩
  · cases f with
    | const b => cases hf
    | _ => rfl
  · rintro rfl
    exact absurd hf (by simp [hg.not_joined])

theorem foldl_combine_of_joined (hf : f.isConnective c = true) (h : ∀ g ∈ fs, Operand c g) :
    fs.foldl (combine c) f = fs.foldl (binary c) f := by
  induction fs generalizing f with
  | nil => rfl
  | cons g fs ih =>
    obtain ⟨hg, hfs⟩ := List.forall_mem_cons.mp h
    rw [List.foldl_cons, List.foldl_cons, combine_of_joined hf hg]
    exact ih (beq_self_eq_true c) hfs

/-- From the neutral value on, different operands that are not complementary are
joined without any simplification. -/
theorem foldl_combine_eq_nest (hneutral : ∀ a, c.eval b a = a) (h : ∀ f ∈ fs, Operand c f)
    (hpair : fs.Pairwise fun f g => f ≠ g ∧ ¬f.IsComplement g) :
    fs.foldl (combine c) (const b) = nest c b fs := by
  match fs with
  | [] => rfl
  | [f] => exact combine_neutral hneutral
  | f :: g :: fs =>
    obtain ⟨hf, hg, hfs⟩ := List.forall_mem_cons.mp h |>.imp_right List.forall_mem_cons.mp
    obtain ⟨hne, hopp⟩ := List.rel_of_pairwise_cons hpair List.mem_cons_self
    have hfirst : combine c f g = binary c f g :=
      combine_of_irreducible ⟨hf.not_const, hg.not_const, hne, hopp⟩
    rw [List.foldl_cons, List.foldl_cons, combine_neutral hneutral, hfirst, nest, List.foldl_cons]
    exact foldl_combine_of_joined (beq_self_eq_true c) hfs

end Propositional.Formula
