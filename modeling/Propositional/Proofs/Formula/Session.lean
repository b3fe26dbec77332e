import Propositional.ClauseSet.Evaluation
import Propositional.Proofs.Formula.Canonical
import Propositional.Proofs.Formula.Valuation

/-!
# Sessions keep their formulas canonical

In a session formulas are made one after another, from constants, variables and
clause sets and from formulas made before, by every operation that simplifies
as it builds. Each operation makes a canonical formula of canonical operands,
so all formulas of a session are canonical: none has a node, at any depth, of a
shape that could be simplified. Canonical forms are so whatever they are taken
of.
-/

set_option autoImplicit false

namespace Propositional

namespace Formula

def nodes : Formula → List Formula
  | const b => [const b]
  | var v => [var v]
  | not f => not f :: f.nodes
  | binary c l r => binary c l r :: (l.nodes ++ r.nodes)

inductive Reducible : Formula → Prop where
  | not_const (b : Bool) : Reducible (not (const b))
  | not_not (f : Formula) : Reducible (not (not f))
  | const_left (c : Connective) (b : Bool) (f : Formula) : Reducible (binary c (const b) f)
  | const_right (c : Connective) (f : Formula) (b : Bool) : Reducible (binary c f (const b))
  | equal (c : Connective) (f : Formula) : Reducible (binary c f f)
  | negation_left (c : Connective) (f : Formula) : Reducible (binary c (not f) f)
  | negation_right (c : Connective) (f : Formula) : Reducible (binary c f (not f))

theorem Irreducible.not_reducible {f : Formula} (h : f.Irreducible) : ¬f.Reducible := by
  intro hred
  cases hred with
  | not_const b => exact absurd h.1 (by simp [isConst])
  | not_not f => exact absurd h.2 (by simp [isNot])
  | const_left c b f => exact absurd h.1 (by simp [isConst])
  | const_right c f b => exact absurd h.2.1 (by simp [isConst])
  | equal c f => exact h.2.2.1 rfl
  | negation_left c f => exact h.2.2.2 (.inl rfl)
  | negation_right c f => exact h.2.2.2 (.inr rfl)

theorem irreducible_of_not_reducible {f : Formula} (h : ¬f.Reducible) : f.Irreducible := by
  cases f with
  | const b => trivial
  | var v => trivial
  | not f =>
    cases f with
    | const b => exact absurd (.not_const b) h
    | var v => exact ⟨rfl, rfl⟩
    | not f => exact absurd (.not_not f) h
    | binary c l r => exact ⟨rfl, rfl⟩
  | binary c l r =>
    refine ⟨?_, ?_, ?_, ?_⟩
    · rw [← Bool.not_eq_true, isConst_iff]
      rintro ⟨b, rfl⟩
      exact h (.const_left c b r)
    · rw [← Bool.not_eq_true, isConst_iff]
      rintro ⟨b, rfl⟩
      exact h (.const_right c l b)
    · rintro rfl
      exact h (.equal c l)
    · rintro (rfl | rfl)
      · exact h (.negation_left c r)
      · exact h (.negation_right c l)

theorem canonical_iff_nodes {f : Formula} : f.Canonical ↔ ∀ g ∈ f.nodes, g.Irreducible := by
  induction f with
  | const b => simp [Canonical, nodes, Irreducible]
  | var v => simp [Canonical, nodes, Irreducible]
  | not f ih => rw [Canonical, nodes, List.forall_mem_cons, ih, and_comm]
  | binary c l r ihl ihr =>
    rw [Canonical, nodes, List.forall_mem_cons, List.forall_mem_append, ihl, ihr, ← and_assoc,
      and_comm]

theorem canonical_iff_not_reducible {f : Formula} :
    f.Canonical ↔ ∀ g ∈ f.nodes, ¬g.Reducible := by
  rw [canonical_iff_nodes]
  exact forall₂_congr fun g _ => ⟨Irreducible.not_reducible, irreducible_of_not_reducible⟩

theorem canonical_foldl_combine (c : Connective) {f : Formula} {fs : List Formula}
    (hf : f.Canonical) (h : ∀ g ∈ fs, g.Canonical) : (fs.foldl (combine c) f).Canonical := by
  induction fs generalizing f with
  | nil => exact hf
  | cons g fs ih =>
    obtain ⟨hg, hfs⟩ := List.forall_mem_cons.mp h
    exact ih (canonical_combine c hf hg) hfs

theorem canonical_conjAll {fs : List Formula} (h : ∀ f ∈ fs, f.Canonical) :
    (conjAll fs).Canonical :=
  canonical_foldl_combine .and (f := const true) trivial h

theorem canonical_disjAll {fs : List Formula} (h : ∀ f ∈ fs, f.Canonical) :
    (disjAll fs).Canonical :=
  canonical_foldl_combine .or (f := const false) trivial h

end Formula

theorem Literal.canonical_toFormula (l : Literal) : l.toFormula.Canonical := by
  rw [toFormula]
  split
  · exact Formula.canonical_negate trivial
  · trivial

theorem Clause.canonical_toFormula (c : Clause) (r : Reading) : (c.toFormula r).Canonical := by
  have hliterals : ∀ f ∈ c.toList.map Literal.toFormula, f.Canonical :=
    List.forall_mem_map.mpr fun l _ => l.canonical_toFormula
  rw [toFormula_eq_foldl]
  exact Formula.canonical_foldl_combine r.inner (f := .const r.absorbing) trivial hliterals

theorem ClauseSet.canonical_toFormula (s : ClauseSet) (r : Reading) :
    (s.toFormula r).Canonical := by
  cases s with
  | const b =>
    rw [toFormula_const]
    trivial
  | clauses cs =>
    have hclauses : ∀ f ∈ cs.toList.map (Clause.toFormula · r), f.Canonical :=
      List.forall_mem_map.mpr fun c _ => Clause.canonical_toFormula c r
    rw [toFormula_clauses]
    exact Formula.canonical_foldl_combine r.outer (f := .const r.identity) trivial hclauses

inductive Operation where
  | const (b : Bool)
  | var (v : Variable)
  | negate (f : Formula)
  | complement (f : Formula)
  | combine (c : Connective) (l r : Formula)
  | conj (l r : Formula)
  | disj (l r : Formula)
  | implies (l r : Formula)
  | meet (l r : Formula)
  | join (l r : Formula)
  | shift (l r : Formula)
  | conjAll (fs : List Formula)
  | disjAll (fs : List Formula)
  | substitute (f : Formula) (v : Variable) (b : Bool)
  | canonicalize (f : Formula)
  | ofClauses (s : ClauseSet) (r : Reading)

namespace Operation

def operands : Operation → List Formula
  | const _ => []
  | var _ => []
  | negate f => [f]
  | complement f => [f]
  | combine _ l r => [l, r]
  | conj l r => [l, r]
  | disj l r => [l, r]
  | implies l r => [l, r]
  | meet l r => [l, r]
  | join l r => [l, r]
  | shift l r => [l, r]
  | conjAll fs => fs
  | disjAll fs => fs
  | substitute f _ _ => [f]
  | canonicalize f => [f]
  | ofClauses _ _ => []

def result : Operation → Formula
  | const b => .const b
  | var v => .var v
  | negate f => f.negate
  | complement f => ~~~f
  | combine c l r => .combine c l r
  | conj l r => l.conj r
  | disj l r => l.disj r
  | implies l r => l.implies r
  | meet l r => l &&& r
  | join l r => l ||| r
  | shift l r => l >>> r
  | conjAll fs => .conjAll fs
  | disjAll fs => .disjAll fs
  | substitute f v b => f.substitute v b
  | canonicalize f => f.canonicalize
  | ofClauses s r => s.toFormula r

open Formula

theorem canonical_result {op : Operation} (h : ∀ f ∈ op.operands, f.Canonical) :
    op.result.Canonical := by
  have hpair {l r : Formula} (hop : op.operands = [l, r]) : l.Canonical ∧ r.Canonical :=
    ⟨h l (by simp [hop]), h r (by simp [hop])⟩
  cases op with
  | const b => trivial
  | var v => trivial
  | negate f | complement f => exact canonical_negate (h f List.mem_cons_self)
  | combine c l r => exact canonical_combine c (hpair rfl).1 (hpair rfl).2
  | conj l r | meet l r => exact canonical_combine .and (hpair rfl).1 (hpair rfl).2
  | disj l r | join l r => exact canonical_combine .or (hpair rfl).1 (hpair rfl).2
  | implies l r | shift l r => exact canonical_combine .implies (hpair rfl).1 (hpair rfl).2
  | conjAll fs => exact canonical_conjAll h
  | disjAll fs => exact canonical_disjAll h
  | substitute f v b => exact canonical_substitute (h f List.mem_cons_self) v b
  | canonicalize f => exact canonical_canonicalize f
  | ofClauses s r => exact s.canonical_toFormula r

end Operation

def Session : List Operation → Prop
  | [] => True
  | op :: earlier => (∀ f ∈ op.operands, f ∈ earlier.map Operation.result) ∧ Session earlier

def decideSession : (ops : List Operation) → Decidable (Session ops)
  | [] => inferInstanceAs (Decidable True)
  | op :: earlier =>
    have := decideSession earlier
    inferInstanceAs (Decidable
      ((∀ f ∈ op.operands, f ∈ earlier.map Operation.result) ∧ Session earlier))

instance : DecidablePred Session := decideSession

namespace Session

theorem canonical {ops : List Operation} (h : Session ops) :
    ∀ f ∈ ops.map Operation.result, f.Canonical := by
  induction ops with
  | nil => simp
  | cons op earlier ih =>
    obtain ⟨hop, hearlier⟩ := h
    rw [List.map_cons, List.forall_mem_cons]
    exact ⟨Operation.canonical_result fun f hf => ih hearlier f (hop f hf), ih hearlier⟩

/-- All formulas of a session and all canonical forms are canonical, which is to
say that no node of theirs, at any depth, could be simplified. -/
theorem canonical_of_session :
    (∀ ops : List Operation, Session ops → ∀ f ∈ ops.map Operation.result, f.Canonical) ∧
    (∀ f : Formula, f.canonicalize.Canonical) ∧
    ∀ f : Formula, f.Canonical ↔ ∀ g ∈ f.nodes, ¬g.Reducible :=
  ⟨fun _ h => h.canonical, Formula.canonical_canonicalize,
    fun _ => Formula.canonical_iff_not_reducible⟩

def collapsing : List Operation :=
  [.substitute (.binary .implies (.binary .and (.var .p) (.var .q)) (.not (.var .p))) .q true,
    .shift (.binary .and (.var .p) (.var .q)) (.not (.var .p)),
    .conjAll [.var .p, .var .q], .negate (.var .p), .var .q, .var .p]

theorem canonical_of_session_collapsing :
    Session collapsing ∧
      collapsing.map Operation.result =
        [.not (.var .p), .binary .implies (.binary .and (.var .p) (.var .q)) (.not (.var .p)),
          .binary .and (.var .p) (.var .q), .not (.var .p), .var .q, .var .p] ∧
      ∀ f ∈ collapsing.map Operation.result, f.Canonical := by
  have hsession : Session collapsing := by decide
  exact ⟨hsession, by decide, canonical_of_session.1 collapsing hsession⟩

end Session

end Propositional
