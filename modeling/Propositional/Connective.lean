/-!
# Binary connectives

A connective is its truth table and its sign. Everything that simplifies,
evaluates or prints a binary formula goes through these two.
-/

set_option autoImplicit false

namespace Propositional

inductive Connective where
  | and
  | or
  | implies
  deriving DecidableEq

namespace Connective

def all : List Connective := [.and, .or, .implies]

theorem mem_all (c : Connective) : c ∈ all := by
  cases c <;> simp [all]

/-- The rows belong to the operands (F, F), (F, T), (T, F) and (T, T). -/
def table : Connective → List Bool
  | .and => [false, false, false, true]
  | .or => [false, true, true, true]
  | .implies => [true, true, false, true]

theorem row_lt_length_table (c : Connective) (a b : Bool) :
    2 * a.toNat + b.toNat < c.table.length := by
  cases c <;> cases a <;> cases b <;> decide

def eval (c : Connective) (a b : Bool) : Bool :=
  c.table.get ⟨2 * a.toNat + b.toNat, c.row_lt_length_table a b⟩

@[simp] theorem eval_and (a b : Bool) : and.eval a b = (a && b) := by
  cases a <;> cases b <;> rfl

@[simp] theorem eval_or (a b : Bool) : or.eval a b = (a || b) := by
  cases a <;> cases b <;> rfl

@[simp] theorem eval_implies (a b : Bool) : implies.eval a b = (!a || b) := by
  cases a <;> cases b <;> rfl

def symbol : Connective → String
  | .and => "∧"
  | .or => "∨"
  | .implies => "→"

theorem symbol_injective {c d : Connective} (h : c.symbol = d.symbol) : c = d := by
  cases c <;> cases d <;> simp_all [symbol]

def rank : Connective → Nat
  | .and => 0
  | .or => 1
  | .implies => 2

instance : Ord Connective := ⟨fun c d => instOrdNat.compare c.rank d.rank⟩

end Connective

end Propositional
