import Propositional.Proofs.Formula.Valuation

/-!
# Simplification preserves truth

One formula simplifies another when it has the same value under every look-up
and under every assignment that gives the other one a value, and mentions no
variable of its own. A node built with simplification on such operands
simplifies the plain node. From this one step follow the joined lists, operand
by operand from the left, and it is asked of no operand that it be canonical.
-/

set_option autoImplicit false

namespace Propositional.Formula

structure Simplifies (plain simple : Formula) : Prop where
  eval_eq : ∀ value, simple.eval value = plain.eval value
  eval?_eq : ∀ env b, plain.eval? env = some b → simple.eval? env = some b
  mentions_of : ∀ v, simple.mentions v = true → plain.mentions v = true

variable {f g l l' r r' : Formula} {value : Variable → Bool}

theorem Simplifies.of_eval (heval : ∀ value, g.eval value = f.eval value)
    (hvars : g.vars ⊆ f.vars) : Simplifies f g where
  eval_eq := heval
  eval?_eq env b h := by
    obtain ⟨hcovers, hvalue⟩ := eval?_eq_some_iff.mp h
    exact eval?_eq_some_iff.mpr ⟨hcovers.mono hvars, (heval env.value).trans hvalue⟩
  mentions_of v h := by
    rw [mentions_iff, ← mem_vars] at h ⊢
    exact hvars v h

theorem Simplifies.vars_subset (h : Simplifies f g) : g.vars ⊆ f.vars := by
  intro v hv
  rw [mem_vars, ← mentions_iff] at hv ⊢
  exact h.mentions_of v hv

theorem Simplifies.refl (f : Formula) : Simplifies f f :=
  .of_eval (fun _ => rfl) fun _ hv => hv

theorem Simplifies.negate (h : Simplifies f g) : Simplifies (not f) g.negate := by
  apply of_eval
  · intro value
    rw [eval_negate, h.eval_eq, eval]
  · rw [vars_negate]
    exact h.vars_subset

theorem Simplifies.combine (c : Connective) (hl : Simplifies l l') (hr : Simplifies r r') :
    Simplifies (binary c l r) (combine c l' r') := by
  apply of_eval
  · intro value
    rw [eval_combine, hl.eval_eq, hr.eval_eq, eval]
  · intro v hv
    have hmem := SortedSet.mem_union.mp (vars_combine_subset c l' r' v hv)
    rw [vars, SortedSet.mem_union]
    exact hmem.imp (hl.vars_subset v) (hr.vars_subset v)

theorem Simplifies.canonicalize (f : Formula) : Simplifies f f.canonicalize :=
  .of_eval (fun _ => eval_canonicalize f) (vars_canonicalize_subset f)

def chain (c : Connective) (b : Bool) (fs : List Formula) : Formula :=
  fs.foldl (binary c) (const b)

theorem Simplifies.foldl (c : Connective) (fs : List Formula) (h : Simplifies f g) :
    Simplifies (fs.foldl (binary c) f) (fs.foldl (Formula.combine c) g) := by
  induction fs generalizing f g with
  | nil => exact h
  | cons k fs ih => exact ih (h.combine c (.refl k))

theorem simplifies_conjAll (fs : List Formula) : Simplifies (chain .and true fs) (conjAll fs) :=
  (Simplifies.refl (const true)).foldl .and fs

theorem simplifies_disjAll (fs : List Formula) : Simplifies (chain .or false fs) (disjAll fs) :=
  (Simplifies.refl (const false)).foldl .or fs

theorem eval_foldl_and (f : Formula) (fs : List Formula) :
    (fs.foldl (binary .and) f).eval value = (f.eval value && fs.all (·.eval value)) := by
  induction fs generalizing f with
  | nil => simp
  | cons g fs ih => simp [ih, eval, Bool.and_assoc]

theorem eval_foldl_or (f : Formula) (fs : List Formula) :
    (fs.foldl (binary .or) f).eval value = (f.eval value || fs.any (·.eval value)) := by
  induction fs generalizing f with
  | nil => simp
  | cons g fs ih => simp [ih, eval, Bool.or_assoc]

theorem mentions_foldl (c : Connective) (f : Formula) (fs : List Formula) (v : Variable) :
    (fs.foldl (binary c) f).mentions v = (f.mentions v || fs.any (·.mentions v)) := by
  induction fs generalizing f with
  | nil => simp
  | cons g fs ih => simp [ih, mentions, Bool.or_assoc]

theorem mentions_chain (c : Connective) (b : Bool) (fs : List Formula) (v : Variable) :
    (chain c b fs).mentions v = fs.any (·.mentions v) := mentions_foldl c (const b) fs v

theorem eval_conjAll (fs : List Formula) :
    (conjAll fs).eval value = fs.all (·.eval value) := by
  rw [(simplifies_conjAll fs).eval_eq, chain, eval_foldl_and, eval, Bool.true_and]

theorem eval_disjAll (fs : List Formula) :
    (disjAll fs).eval value = fs.any (·.eval value) := by
  rw [(simplifies_disjAll fs).eval_eq, chain, eval_foldl_or, eval, Bool.false_or]

/-- What is built with simplification has the value of its operands joined, under
every look-up and under every assignment that gives the plain formula a value,
and mentions variables of its operands only. -/
theorem simplification_preserves_truth :
    (∀ value : Variable → Bool,
      (∀ (c : Connective) (l r : Formula),
        (combine c l r).eval value = c.eval (l.eval value) (r.eval value)) ∧
      (∀ f : Formula, f.negate.eval value = !f.eval value) ∧
      (∀ fs : List Formula, (conjAll fs).eval value = fs.all (·.eval value) ∧
        (disjAll fs).eval value = fs.any (·.eval value)) ∧
      ∀ f : Formula, f.canonicalize.eval value = f.eval value) ∧
    (∀ (c : Connective) (l r : Formula), Simplifies (binary c l r) (combine c l r)) ∧
    (∀ f : Formula, Simplifies (not f) f.negate) ∧
    (∀ fs : List Formula, Simplifies (chain .and true fs) (conjAll fs) ∧
      Simplifies (chain .or false fs) (disjAll fs)) ∧
    (∀ (c : Connective) (b : Bool) (fs : List Formula) (v : Variable),
      (chain c b fs).mentions v = fs.any (·.mentions v)) ∧
    ∀ f : Formula, Simplifies f f.canonicalize := by
  refine ⟨fun value => ⟨eval_combine, eval_negate, ?_, eval_canonicalize⟩, ?_, ?_, ?_,
    mentions_chain, Simplifies.canonicalize⟩
  · exact fun fs => ⟨eval_conjAll fs, eval_disjAll fs⟩
  · exact fun c l r => (Simplifies.refl l).combine c (.refl r)
  · exact fun f => (Simplifies.refl f).negate
  · exact fun fs => ⟨simplifies_conjAll fs, simplifies_disjAll fs⟩

/-- Complementary operands of an implication, either way round. -/
example : combine .implies (.not (.var .p)) (.var .p) = .var .p ∧
    combine .implies (.var .p) (.not (.var .p)) = .not (.var .p) := by decide

end Propositional.Formula
