import Propositional.Formula.Walk
import Propositional.Proofs.Formula.Size

/-!
# Canonical forms are rebuilt formulas

Taking the canonical form skips what is canonical already, yet it gives what
building every node again from the leaves up would give. The test of a single
node asks whether building would leave the node as it is, and the test of a
whole formula walks through it and stops at the first node that fails. A formula
passes exactly when it is its own canonical form, and since every simplified
node is smaller than the plain one the sizes alone tell.
-/

set_option autoImplicit false

namespace Propositional.Formula

variable {c : Connective} {f l r : Formula}

theorem canonicalize_eq_rebuild (f : Formula) : f.canonicalize = f.rebuild := by
  induction f with
  | const b => rfl
  | var v => rfl
  | not f ih => rw [canonicalize_not, ih, rebuild]
  | binary c l r ihl ihr => rw [canonicalize_binary, ihl, ihr, rebuild]

theorem irreducible_not_iff : (not f).Irreducible ↔ f.negate = not f := by
  constructor
  · exact negate_of_irreducible
  · intro h
    by_contra hred
    exact absurd (congrArg size h) (Nat.ne_of_lt (size_negate_lt hred))

theorem irreducible_binary_iff : (binary c l r).Irreducible ↔ combine c l r = binary c l r := by
  constructor
  · exact combine_of_irreducible
  · intro h
    by_contra hred
    exact absurd (congrArg size h) (Nat.ne_of_lt (size_combine_lt hred))

theorem canonicalize_eq_self_iff : f.canonicalize = f ↔ f.Canonical :=
  ⟨fun h => h ▸ canonical_canonicalize f, canonicalize_eq_self⟩

theorem size_canonicalize_eq_iff : f.canonicalize.size = f.size ↔ f.Canonical := by
  constructor
  · intro h
    by_contra hred
    exact absurd h (Nat.ne_of_lt (size_canonicalize_lt hred))
  · exact fun h => congrArg size (canonicalize_eq_self h)

theorem size_canonicalize_lt_iff : f.canonicalize.size < f.size ↔ ¬f.Canonical :=
  ⟨fun hlt h => absurd (size_canonicalize_eq_iff.mpr h) (Nat.ne_of_lt hlt), size_canonicalize_lt⟩

theorem canonicalize_eq_const (h : f.vars = ∅) (value : Variable → Bool) :
    f.canonicalize = const (f.eval value) := by
  have hvars : f.canonicalize.vars = ∅ := by
    rw [SortedSet.eq_empty_iff]
    exact fun v hv => SortedSet.ne_empty_of_mem (vars_canonicalize_subset f v hv) h
  rw [(canonical_canonicalize f).eq_const_of_vars hvars value, eval_canonicalize]

def inspect (_ : Unit) : Mark → Except Formula Unit
  | .enter f => if f.Irreducible then .ok () else .error f
  | .leave _ => .ok ()
  | .occurrence _ => .ok ()

theorem inspect_enter_eq_ok_iff {u : Unit} : inspect u (.enter f) = .ok () ↔ f.Irreducible := by
  rw [inspect]
  split <;> simp_all

/-- A walk goes on only past what lets it pass. -/
theorem bind_eq_ok_iff {ε : Type} {x : Except ε Unit} {next : Unit → Except ε Unit} :
    x >>= next = .ok () ↔ x = .ok () ∧ next () = .ok () := by
  cases x <;> simp [bind, Except.bind]

theorem walk_inspect_eq_ok_iff : f.walk inspect () = .ok () ↔ f.Canonical := by
  induction f with
  | const b => simp [walk, bind_eq_ok_iff, inspect, Irreducible, Canonical]
  | var v => simp [walk, bind_eq_ok_iff, inspect, Irreducible, Canonical]
  | not f ih =>
    rw [walk, bind_eq_ok_iff, bind_eq_ok_iff, inspect_enter_eq_ok_iff, ih, Canonical]
    constructor
    · rintro ⟨hirr, hf, -⟩
      exact ⟨hf, hirr⟩
    · rintro ⟨hf, hirr⟩
      exact ⟨hirr, hf, rfl⟩
  | binary c l r ihl ihr =>
    rw [walk, bind_eq_ok_iff, bind_eq_ok_iff, bind_eq_ok_iff, inspect_enter_eq_ok_iff, ihl, ihr,
      Canonical]
    constructor
    · rintro ⟨hirr, hl, hr, -⟩
      exact ⟨hl, hr, hirr⟩
    · rintro ⟨hl, hr, hirr⟩
      exact ⟨hirr, hl, hr, rfl⟩

/-- The canonical form is the bottom-up rebuilding, in one step. A node passes
the test exactly when building it with simplification leaves it as it is, and a
walk that tests every node gets through exactly the formulas that are their own
canonical forms, which are those of which the canonical form is not smaller. A
formula without variables has a constant for its canonical form. -/
theorem canonicalize_agrees_with_tests :
    (∀ f : Formula, f.canonicalize = f.rebuild ∧ f.canonicalize.canonicalize = f.canonicalize) ∧
    (∀ f : Formula, (not f).Irreducible ↔ f.negate = not f) ∧
    (∀ (c : Connective) (l r : Formula),
      (binary c l r).Irreducible ↔ combine c l r = binary c l r) ∧
    (∀ f : Formula, (f.canonicalize = f ↔ f.Canonical) ∧
      (f.Canonical ↔ f.walk inspect () = .ok ()) ∧
      (f.canonicalize.size = f.size ↔ f.Canonical) ∧
      (f.canonicalize.size < f.size ↔ ¬f.Canonical)) ∧
    ∀ f : Formula, f.vars = ∅ → ∀ value, f.canonicalize = const (f.eval value) := by
  refine ⟨?_, ?_, ?_, ?_, ?_⟩
  · intro f
    exact ⟨canonicalize_eq_rebuild f, canonicalize_eq_self (canonical_canonicalize f)⟩
  · exact fun f => irreducible_not_iff
  · exact fun c l r => irreducible_binary_iff
  · intro f
    exact ⟨canonicalize_eq_self_iff, walk_inspect_eq_ok_iff.symm, size_canonicalize_eq_iff,
      size_canonicalize_lt_iff⟩
  · exact fun f h => canonicalize_eq_const h

def variableFree : Formula :=
  .not (.binary .implies (.const true) (.not (.not (.binary .or (.const false) (.const false)))))

theorem canonicalize_agrees_with_tests_variableFree :
    variableFree.vars = ∅ ∧ ¬variableFree.Canonical ∧
      variableFree.canonicalize = .const (variableFree.eval fun _ => false) ∧
      variableFree.eval (fun _ => false) = true := by
  have hvars : variableFree.vars = ∅ := by decide
  exact ⟨hvars, by decide,
    canonicalize_agrees_with_tests.2.2.2.2 variableFree hvars fun _ => false, by decide⟩

end Propositional.Formula
