import Propositional.Formula.Basic

/-!
# Walking through a formula

A walk enters each node, goes through its operands from the left and leaves
the node; between entering and leaving a variable node it reports the
variable. The walk carries a state from mark to mark in a monad that may stop
it. An observer notes the marks it selects and may stop right after a given
number of them.
-/

set_option autoImplicit false

namespace Propositional

inductive Mark where
  | enter (f : Formula)
  | leave (f : Formula)
  | occurrence (v : Variable)
  deriving DecidableEq

namespace Mark

def isEnter : Mark → Bool
  | enter _ => true
  | _ => false

def isLeave : Mark → Bool
  | leave _ => true
  | _ => false

def isOccurrence : Mark → Bool
  | occurrence _ => true
  | _ => false

end Mark

namespace Formula

def walk {m : Type → Type} [Monad m] {σ : Type} (visit : σ → Mark → m σ) :
    Formula → σ → m σ
  | const b, s => do
    let s ← visit s (.enter (const b))
    visit s (.leave (const b))
  | var v, s => do
    let s ← visit s (.enter (var v))
    let s ← visit s (.occurrence v)
    visit s (.leave (var v))
  | not f, s => do
    let s ← visit s (.enter (not f))
    let s ← f.walk visit s
    visit s (.leave (not f))
  | binary c l r, s => do
    let s ← visit s (.enter (binary c l r))
    let s ← l.walk visit s
    let s ← r.walk visit s
    visit s (.leave (binary c l r))

/-- Notes a selected mark after those seen before it. The walk is broken off
when the mark is the one that `stop` counts to; nothing is counted to by zero. -/
def note (selects : Mark → Bool) (stop : Nat) (seen : List Mark) (m : Mark) :
    Except (List Mark) (List Mark) :=
  if selects m then
    if seen.length + 1 = stop then .error (seen ++ [m]) else .ok (seen ++ [m])
  else .ok seen

def observe (selects : Mark → Bool) (stop : Nat) (f : Formula) :
    Except (List Mark) (List Mark) :=
  f.walk (note selects stop) []

def outsideNegations : Formula → List Formula
  | const b => [const b]
  | var v => [var v]
  | not f => [not f]
  | binary c l r => binary c l r :: (l.outsideNegations ++ r.outsideNegations)

end Formula

end Propositional
