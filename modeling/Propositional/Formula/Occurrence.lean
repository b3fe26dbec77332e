import Propositional.Formula.Basic
import Propositional.SortedSet.Lemmas

/-!
# The variables of a formula

The occurrences of a formula are its variables from left to right, with
repetitions. The set of variables, the test whether a variable is mentioned
and the pivot are each computed on the tree; what they say about the
occurrences is stated beside them. The pivot is the first occurrence, found by
descending into operands from the left.
-/

set_option autoImplicit false

namespace Propositional.Formula

def occurrences : Formula → List Variable
  | const _ => []
  | var v => [v]
  | not f => f.occurrences
  | binary _ l r => l.occurrences ++ r.occurrences

def mentions (v : Variable) : Formula → Bool
  | const _ => false
  | var w => w == v
  | not f => f.mentions v
  | binary _ l r => l.mentions v || r.mentions v

theorem mentions_iff {v : Variable} {f : Formula} : f.mentions v = true ↔ v ∈ f.occurrences := by
  induction f with
  | const b => simp [mentions, occurrences]
  | var w => simpa [mentions, occurrences] using eq_comm
  | not f ih => exact ih
  | binary c l r ihl ihr =>
    rw [mentions, Bool.or_eq_true, ihl, ihr, occurrences, List.mem_append]

def vars : Formula → SortedSet Variable
  | const _ => ∅
  | var v => {v}
  | not f => f.vars
  | binary _ l r => l.vars ∪ r.vars

theorem mem_vars {v : Variable} {f : Formula} : v ∈ f.vars ↔ v ∈ f.occurrences := by
  induction f with
  | const b => simp [vars, occurrences]
  | var w => simp [vars, occurrences]
  | not f ih => exact ih
  | binary c l r ihl ihr => simp [vars, occurrences, ihl, ihr]

def pivot : Formula → Option Variable
  | const _ => none
  | var v => some v
  | not f => f.pivot
  | binary _ l r => l.pivot <|> r.pivot

theorem pivot_eq_head? (f : Formula) : f.pivot = f.occurrences.head? := by
  induction f with
  | const b => rfl
  | var v => rfl
  | not f ih => exact ih
  | binary c l r ihl ihr => simp [pivot, occurrences, ihl, ihr, List.head?_append]

theorem mem_occurrences_of_pivot {v : Variable} {f : Formula} (h : f.pivot = some v) :
    v ∈ f.occurrences := by
  rw [pivot_eq_head?] at h
  exact List.mem_of_mem_head? h

theorem pivot_eq_none_iff {f : Formula} : f.pivot = none ↔ f.occurrences = [] := by
  rw [pivot_eq_head?, List.head?_eq_none_iff]

end Propositional.Formula
