import Propositional.Assignment
import Propositional.Formula.Occurrence

/-!
# Evaluating formulas

A formula has a value under any function from variables to truth values, and
under an assignment it has one exactly when the assignment covers its
variables. `evalM` evaluates with look-ups that have an effect, from left to
right and without leaving out an operand; evaluation under an assignment and
the record of the variables asked for are two uses of it.
-/

set_option autoImplicit false

namespace Propositional.Formula

def eval (value : Variable → Bool) : Formula → Bool
  | const b => b
  | var v => value v
  | not f => !f.eval value
  | binary c l r => c.eval (l.eval value) (r.eval value)

theorem eval_congr {value value' : Variable → Bool} {f : Formula}
    (h : ∀ v ∈ f.vars, value v = value' v) : f.eval value = f.eval value' := by
  induction f with
  | const b => rfl
  | var v => exact h v (by simp [vars])
  | not f ih => rw [eval, eval, ih h]
  | binary c l r ihl ihr =>
    have hl : ∀ v ∈ l.vars, value v = value' v := fun v hv => h v (by simp [vars, hv])
    have hr : ∀ v ∈ r.vars, value v = value' v := fun v hv => h v (by simp [vars, hv])
    rw [eval, eval, ihl hl, ihr hr]

def evalM {m : Type → Type} [Monad m] (lookup : Variable → m Bool) : Formula → m Bool
  | const b => pure b
  | var v => lookup v
  | not f => do
    let a ← f.evalM lookup
    pure !a
  | binary c l r => do
    let a ← l.evalM lookup
    let b ← r.evalM lookup
    pure (c.eval a b)

def eval? (f : Formula) (env : Assignment) : Option Bool := f.evalM env.get?

def ask (value : Variable → Bool) (v : Variable) : StateM (List Variable) Bool := do
  modify (· ++ [v])
  pure (value v)

def evalAsking (value : Variable → Bool) (f : Formula) : Bool × List Variable :=
  (f.evalM (ask value)).run []

@[simp] theorem eval?_const (b : Bool) (env : Assignment) : (const b).eval? env = some b := rfl

@[simp] theorem eval?_var (v : Variable) (env : Assignment) : (var v).eval? env = env.get? v := rfl

@[simp] theorem eval?_not (f : Formula) (env : Assignment) :
    (not f).eval? env = (f.eval? env).map (!·) := by
  rw [eval?, evalM, ← eval?]
  cases f.eval? env <;> rfl

@[simp] theorem eval?_binary (c : Connective) (l r : Formula) (env : Assignment) :
    (binary c l r).eval? env =
      (l.eval? env).bind fun a => (r.eval? env).map fun b => c.eval a b := by
  rw [eval?, evalM, ← eval?, ← eval?]
  cases l.eval? env <;> cases r.eval? env <;> rfl

def truthTable (f : Formula) : List (Option Bool) :=
  (Assignment.allOver f.vars).map f.eval?

end Propositional.Formula
