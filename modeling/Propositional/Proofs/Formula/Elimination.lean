import Propositional.Proofs.Formula.Size
import Propositional.Proofs.Formula.Substitution
import Propositional.Proofs.Formula.Valuation

/-!
# Eliminating variables

Substitution overrides one variable in the meaning of a formula and removes it
from the text, and where the variable occurs the formula shrinks, whether its
nodes could be simplified or not. On a canonical formula two substitutions may
be exchanged, so values may be given to its variables in any order. Once every
variable has its value, a canonical formula without variables is left, which is
the constant that evaluation gives.
-/

set_option autoImplicit false

namespace Propositional.Formula

variable {f : Formula} {env : Assignment} {v w : Variable}

theorem mentions_substitute {b : Bool} (h : (f.substitute v b).mentions w = true) :
    w ≠ v ∧ f.mentions w = true := by
  rw [mentions_iff, ← mem_vars] at h ⊢
  exact mem_vars_substitute h

theorem mentions_substitute_self (f : Formula) (v : Variable) (b : Bool) :
    (f.substitute v b).mentions v = false := by
  rw [← Bool.not_eq_true]
  exact fun h => (mentions_substitute h).1 rfl

theorem substitute_eq_self_iff {b : Bool} : f.substitute v b = f ↔ f.mentions v = false := by
  constructor
  · exact fun h => h ▸ mentions_substitute_self f v b
  · intro h
    have hv : v ∉ f.occurrences := by
      rw [← mentions_iff, h]
      exact Bool.false_ne_true
    exact substitute_eq_self hv b

theorem size_substitute_lt_iff {b : Bool} :
    (f.substitute v b).size < f.size ↔ f.mentions v = true ∧ f ≠ var v := by
  constructor
  · intro h
    constructor
    · by_contra hv
      rw [Bool.not_eq_true, ← substitute_eq_self_iff (b := b)] at hv
      exact absurd (congrArg size hv) (Nat.ne_of_lt h)
    · rintro rfl
      rw [substitute_self] at h
      exact absurd h (Nat.lt_irrefl 1)
  · rintro ⟨hv, hne⟩
    exact size_substitute_lt (mentions_iff.mp hv) hne b

/-- Substituting is evaluating with the variable overridden. The variable is
gone, no other one is brought in, and a formula without it stays as it is. No
formula becomes larger, and all that mention the variable become smaller but the
variable alone. -/
theorem substitute_overrides_and_eliminates (f : Formula) (v : Variable) (b : Bool) :
    (∀ value, (f.substitute v b).eval value = f.eval (Function.update value v b)) ∧
    (f.substitute v b).mentions v = false ∧
    (∀ w, (f.substitute v b).mentions w = true → f.mentions w = true) ∧
    (f.substitute v b = f ↔ f.mentions v = false) ∧
    (f.substitute v b).size ≤ f.size ∧
    ((f.substitute v b).size < f.size ↔ f.mentions v = true ∧ f ≠ var v) :=
  ⟨fun _ => eval_substitute f v b, mentions_substitute_self f v b,
    fun _ h => (mentions_substitute h).2, substitute_eq_self_iff, size_substitute_le f v b,
    size_substitute_lt_iff⟩

def padded : Formula :=
  .binary .implies (.not (.not (.var .p))) (.binary .or (.var .q) (.not (.const true)))

theorem substitute_overrides_and_eliminates_padded :
    padded.substitute .p true = .binary .or (.var .q) (.not (.const true)) ∧
      (padded.substitute .p true).mentions .q = true ∧ padded.mentions .q = true := by
  have hq : (padded.substitute .p true).mentions .q = true := by decide
  exact ⟨by decide, hq, (substitute_overrides_and_eliminates padded .p true).2.2.1 .q hq⟩

theorem substitute_comm (h : f.Canonical) (hvw : v ≠ w) (a b : Bool) :
    (f.substitute v a).substitute w b = (f.substitute w b).substitute v a := by
  induction f with
  | const c => rfl
  | var u =>
    have hother {x y : Variable} {d : Bool} (hxy : x ≠ y) : (var x).substitute y d = var x :=
      substitute_eq_self_iff.mpr (by simpa [mentions] using hxy)
    by_cases hv : u = v
    · subst hv
      rw [hother hvw, substitute_self]
      rfl
    · by_cases hw : u = w
      · subst hw
        rw [hother hv, substitute_self]
        rfl
      · rw [hother hv, hother hw, hother hv]
  | not f ih =>
    rw [substitute_not_of_irreducible h.2, substitute_not_of_irreducible h.2,
      substitute_negate (canonical_substitute h.1 v a),
      substitute_negate (canonical_substitute h.1 w b), ih h.1]
  | binary c l r ihl ihr =>
    rw [substitute_binary_of_irreducible h.2.2, substitute_binary_of_irreducible h.2.2,
      substitute_combine (canonical_substitute h.1 v a) (canonical_substitute h.2.1 v a),
      substitute_combine (canonical_substitute h.1 w b) (canonical_substitute h.2.1 w b),
      ihl h.1, ihr h.2.1]

def settle (env : Assignment) (v : Variable) (f : Formula) : Formula :=
  (env.get? v).elim f (f.substitute v)

def instantiate (env : Assignment) : List Variable → Formula → Formula
  | [], f => f
  | v :: order, f => instantiate env order (f.settle env v)

theorem settle_of_get? {b : Bool} (h : env.get? v = some b) :
    f.settle env v = f.substitute v b := by
  rw [settle, h, Option.elim_some]

theorem settle_of_get?_none (h : env.get? v = none) : f.settle env v = f := by
  rw [settle, h, Option.elim_none]

theorem canonical_settle (h : f.Canonical) (env : Assignment) (v : Variable) :
    (f.settle env v).Canonical := by
  cases hv : env.get? v with
  | none => rwa [settle_of_get?_none hv]
  | some b =>
    rw [settle_of_get? hv]
    exact canonical_substitute h v b

theorem eval_settle (f : Formula) (env : Assignment) (v : Variable) :
    (f.settle env v).eval env.value = f.eval env.value := by
  cases hv : env.get? v with
  | none => rw [settle_of_get?_none hv]
  | some b =>
    have hvalue : env.value v = b := (Assignment.get?_eq_some_iff.mp hv).2
    rw [settle_of_get? hv, eval_substitute, ← hvalue, Function.update_eq_self]

theorem mem_vars_settle (h : w ∈ (f.settle env v).vars) :
    w ∈ f.vars ∧ (w = v → env.get? w = none) := by
  cases hv : env.get? v with
  | none =>
    rw [settle_of_get?_none hv] at h
    exact ⟨h, fun hw => hw ▸ hv⟩
  | some b =>
    rw [settle_of_get? hv] at h
    obtain ⟨hne, hmem⟩ := mem_vars_substitute h
    exact ⟨hmem, fun hw => absurd hw hne⟩

theorem settle_comm (h : f.Canonical) (env : Assignment) (v w : Variable) :
    (f.settle env v).settle env w = (f.settle env w).settle env v := by
  by_cases hvw : v = w
  · rw [hvw]
  cases hv : env.get? v with
  | none => rw [settle_of_get?_none hv, settle_of_get?_none hv]
  | some a =>
    cases hw : env.get? w with
    | none => rw [settle_of_get?_none hw, settle_of_get?_none hw]
    | some b =>
      rw [settle_of_get? hv, settle_of_get? hw, settle_of_get? hv, settle_of_get? hw]
      exact substitute_comm h hvw a b

theorem canonical_instantiate (h : f.Canonical) (env : Assignment) (order : List Variable) :
    (f.instantiate env order).Canonical := by
  induction order generalizing f with
  | nil => exact h
  | cons v order ih => exact ih (canonical_settle h env v)

theorem eval_instantiate (f : Formula) (env : Assignment) (order : List Variable) :
    (f.instantiate env order).eval env.value = f.eval env.value := by
  induction order generalizing f with
  | nil => rfl
  | cons v order ih => rw [instantiate, ih, eval_settle]

theorem mem_vars_instantiate {order : List Variable}
    (h : w ∈ (f.instantiate env order).vars) :
    w ∈ f.vars ∧ (w ∈ order → env.get? w = none) := by
  induction order generalizing f with
  | nil => exact ⟨h, fun hw => absurd hw List.not_mem_nil⟩
  | cons v order ih =>
    obtain ⟨hsettled, hrest⟩ := ih h
    obtain ⟨hmem, hv⟩ := mem_vars_settle hsettled
    exact ⟨hmem, fun hw => (List.mem_cons.mp hw).elim hv hrest⟩

/-- The order in which variables of a canonical formula get their values does
not show. -/
theorem instantiate_perm {order order' : List Variable} (hperm : order.Perm order')
    (h : f.Canonical) (env : Assignment) :
    f.instantiate env order = f.instantiate env order' := by
  induction hperm generalizing f with
  | nil => rfl
  | cons v _ ih => exact ih (canonical_settle h env v)
  | swap v w order => rw [instantiate, instantiate, instantiate, instantiate, settle_comm h]
  | trans _ _ ih ih' => exact (ih h).trans (ih' h)

theorem instantiate_eq_const {order : List Variable} (h : f.Canonical)
    (hcovers : env.Covers f.vars) (horder : ∀ v ∈ f.vars, v ∈ order) :
    f.instantiate env order = const (f.eval env.value) := by
  have hvars : (f.instantiate env order).vars = ∅ := by
    rw [SortedSet.eq_empty_iff]
    intro v hv
    obtain ⟨hmem, hnone⟩ := mem_vars_instantiate hv
    have hsome := hcovers v hmem
    rw [hnone (horder v hmem)] at hsome
    cases hsome
  rw [(canonical_instantiate h env order).eq_const_of_vars hvars env.value, eval_instantiate]

/-- On a canonical formula the order of substitutions is irrelevant: two of them
may be exchanged, and so may the members of a list of variables that get their
values one after another. Where the list has all variables of the formula and
each has a value, the constant that evaluation gives is what is left. -/
theorem substitution_in_any_order (f : Formula) (h : f.Canonical) :
    (∀ (v w : Variable) (a b : Bool), v ≠ w →
      (f.substitute v a).substitute w b = (f.substitute w b).substitute v a) ∧
    (∀ (env : Assignment) (order order' : List Variable), order.Perm order' →
      f.instantiate env order = f.instantiate env order') ∧
    ∀ env : Assignment, env.Covers f.vars → ∃ b, f.eval? env = some b ∧
      ∀ order : List Variable, (∀ v ∈ f.vars, v ∈ order) → f.instantiate env order = const b := by
  refine ⟨?_, ?_, ?_⟩
  · exact fun v w a b hvw => substitute_comm h hvw a b
  · exact fun env order order' hperm => instantiate_perm hperm h env
  · intro env hcovers
    exact ⟨f.eval env.value, eval?_of_covers hcovers, fun _ => instantiate_eq_const h hcovers⟩

def guardedChoice : Formula :=
  .binary .implies (.binary .and (.var .p) (.var .q))
    (.binary .or (.var .r) (.binary .and (.not (.var .q)) (.var .p)))

theorem substitution_in_any_order_guardedChoice :
    guardedChoice.Canonical ∧
      (guardedChoice.substitute .p true).substitute .q false =
        (guardedChoice.substitute .q false).substitute .p true ∧
      guardedChoice.instantiate (.ofList [(.p, true), (.r, false)]) [.p, .r] =
        guardedChoice.instantiate (.ofList [(.p, true), (.r, false)]) [.r, .p] ∧
      guardedChoice.eval? (.ofList [(.p, true), (.q, true), (.r, false)]) = some false ∧
      guardedChoice.instantiate (.ofList [(.p, true), (.q, true), (.r, false)]) [.r, .q, .p] =
        .const false := by
  have hcanonical : guardedChoice.Canonical := by decide
  obtain ⟨hcomm, hperm, hall⟩ := substitution_in_any_order guardedChoice hcanonical
  obtain ⟨b, heval, hconst⟩ :=
    hall (.ofList [(.p, true), (.q, true), (.r, false)]) (by decide)
  have hfalse : guardedChoice.eval? (.ofList [(.p, true), (.q, true), (.r, false)]) =
      some false := by decide
  obtain rfl : b = false := Option.some.inj (heval.symm.trans hfalse)
  have horder : [Variable.p, Variable.r].Perm [.r, .p] := .swap _ _ []
  exact ⟨hcanonical, hcomm .p .q true false (by decide), hperm _ _ _ horder, hfalse,
    hconst _ (by decide)⟩

/-- A negated constant that is met early in one order only. -/
example :
    ((not (.binary .implies (.binary .and (.var .p) (.not (.const true))) (.var .q))).substitute
        .p true).substitute .q false = .const false ∧
      ((not (.binary .implies (.binary .and (.var .p) (.not (.const true))) (.var .q))).substitute
        .q false).substitute .p true = .not (.const true) := by decide

end Propositional.Formula
