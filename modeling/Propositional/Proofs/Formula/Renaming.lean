import Mathlib.Logic.Equiv.Fintype
import Propositional.Proofs.Formula.Valuation

/-!
# Renaming the variables of a formula

A renaming replaces every variable node for node. Where different variables stay
different, equal subformulas stay equal and complementary ones complementary,
and these are the only comparisons that building with simplification and
substituting make. So an injective renaming passes through both, and the pivot
of the renamed formula is the renamed pivot. A renaming that is injective on the
variables of a formula acts on it as some permutation of all variables does.
-/

set_option autoImplicit false

namespace Propositional.Formula

def rename (ρ : Variable → Variable) : Formula → Formula
  | const b => const b
  | var v => var (ρ v)
  | not f => not (f.rename ρ)
  | binary c l r => binary c (l.rename ρ) (r.rename ρ)

variable {ρ : Variable → Variable} {f g : Formula}

theorem rename_congr {σ : Variable → Variable} (h : ∀ v ∈ f.vars, ρ v = σ v) :
    f.rename ρ = f.rename σ := by
  induction f with
  | const b => rfl
  | var v => exact congrArg var (h v (SortedSet.mem_singleton_self v))
  | not f ih => exact congrArg not (ih h)
  | binary c l r ihl ihr =>
    have hl : ∀ v ∈ l.vars, ρ v = σ v := fun v hv => h v (SortedSet.mem_union.mpr (.inl hv))
    have hr : ∀ v ∈ r.vars, ρ v = σ v := fun v hv => h v (SortedSet.mem_union.mpr (.inr hv))
    rw [rename, rename, ihl hl, ihr hr]

/-- What is injective on finitely many variables acts on them as a permutation
of all variables. -/
theorem exists_perm_extending {vars : SortedSet Variable}
    (h : ∀ v ∈ vars, ∀ w ∈ vars, ρ v = ρ w → v = w) :
    ∃ σ : Equiv.Perm Variable, ∀ v ∈ vars, ρ v = σ v := by
  have hinj : Function.Injective fun v : {v // v ∈ vars.toList} => ρ v.1 :=
    fun v w hvw => Subtype.ext (h v.1 v.2 w.1 w.2 hvw)
  obtain ⟨σ, hσ⟩ := Equiv.Perm.exists_extending_pair _ _ Subtype.val_injective hinj
  exact ⟨σ, fun v hv => (hσ ⟨v, hv⟩).symm⟩

theorem occurrences_rename (f : Formula) :
    (f.rename ρ).occurrences = f.occurrences.map ρ := by
  induction f with
  | const b => rfl
  | var v => rfl
  | not f ih => exact ih
  | binary c l r ihl ihr => rw [rename, occurrences, occurrences, List.map_append, ihl, ihr]

theorem pivot_rename (f : Formula) : (f.rename ρ).pivot = f.pivot.map ρ := by
  rw [pivot_eq_head?, pivot_eq_head?, occurrences_rename, List.head?_map]

theorem eval_rename (f : Formula) (value : Variable → Bool) :
    (f.rename ρ).eval value = f.eval fun v => value (ρ v) := by
  induction f with
  | const b => rfl
  | var v => rfl
  | not f ih => rw [rename, eval, eval, ih]
  | binary c l r ihl ihr => rw [rename, eval, eval, ihl, ihr]

theorem asConst?_rename (f : Formula) : (f.rename ρ).asConst? = f.asConst? := by
  cases f <;> rfl

theorem negate_rename (f : Formula) : (f.rename ρ).negate = f.negate.rename ρ := by
  cases f <;> rfl

theorem collapse_rename (x y : Bool) (f : Formula) :
    (f.rename ρ).collapse x y = (f.collapse x y).rename ρ := by
  rw [collapse, collapse, negate_rename]
  split
  · rfl
  · split <;> rfl

section Injective

variable (hρ : Function.Injective ρ)

include hρ

theorem rename_injective : Function.Injective (rename ρ) := by
  intro f g h
  induction f generalizing g with
  | const b => cases g <;> simp_all [rename]
  | var v =>
    cases g with
    | var w => exact congrArg var (hρ (var.inj h))
    | _ => simp [rename] at h
  | not f ih =>
    cases g with
    | not g => exact congrArg not (ih (not.inj h))
    | _ => simp [rename] at h
  | binary c l r ihl ihr =>
    cases g with
    | binary d l' r' =>
      obtain ⟨rfl, hl, hr⟩ := binary.inj h
      rw [ihl hl, ihr hr]
    | _ => simp [rename] at h

theorem isComplement_rename : (f.rename ρ).IsComplement (g.rename ρ) ↔ f.IsComplement g :=
  or_congr ((rename_injective hρ).eq_iff (b := not g)) ((rename_injective hρ).eq_iff (b := not f))

theorem combine_rename (c : Connective) (l r : Formula) :
    combine c (l.rename ρ) (r.rename ρ) = (combine c l r).rename ρ := by
  rw [combine, combine, asConst?_rename, asConst?_rename]
  cases l.asConst? with
  | some a =>
    cases r.asConst? with
    | some b => rfl
    | none => exact collapse_rename _ _ r
  | none =>
    cases r.asConst? with
    | some b => exact collapse_rename _ _ l
    | none =>
      simp only [(rename_injective hρ).eq_iff, isComplement_rename hρ, collapse_rename]
      split
      · rfl
      · split <;> rfl

theorem canonicalize_rename (f : Formula) :
    (f.rename ρ).canonicalize = f.canonicalize.rename ρ := by
  induction f with
  | const b => rfl
  | var v => rfl
  | not f ih => rw [rename, canonicalize_not, canonicalize_not, ih, negate_rename]
  | binary c l r ihl ihr =>
    rw [rename, canonicalize_binary, canonicalize_binary, ihl, ihr, combine_rename hρ]

theorem replace?_rename (f : Formula) (v : Variable) (b : Bool) :
    (f.rename ρ).replace? (ρ v) b = (f.replace? v b).map (rename ρ) := by
  induction f with
  | const a => rfl
  | var w =>
    rw [rename, replace?, replace?]
    by_cases h : w = v
    · simp [h, rename]
    · simp [h, hρ.ne h]
  | not f ih =>
    rw [rename, replace?, replace?, ih]
    cases f.replace? v b with
    | none => rfl
    | some g => exact congrArg some (negate_rename g)
  | binary c l r ihl ihr =>
    rw [rename, replace?, replace?, ihl, ihr]
    cases l.replace? v b <;> cases r.replace? v b <;> simp [combine_rename hρ]

theorem substitute_rename (f : Formula) (v : Variable) (b : Bool) :
    (f.rename ρ).substitute (ρ v) b = (f.substitute v b).rename ρ := by
  rw [substitute, substitute, replace?_rename hρ]
  cases f.replace? v b <;> rfl

end Injective

end Propositional.Formula
