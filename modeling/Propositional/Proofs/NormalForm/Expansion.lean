import Propositional.Proofs.NormalForm.Partition

/-!
# The clauses of a normal form are the shortest absorbing expansions

An expansion goes from a formula through values for its pivots, one at a time,
and each step is labelled with the guard of the value. The clauses of a normal
form are the sets of labels of those expansions that end in a formula with the
absorbing value everywhere and pass no such formula before. The induction is
that of the decision tree: a formula that is constant sends one clause or none
up to the node above, and every other formula its own expansions, each with the
guard as one more label.
-/

set_option autoImplicit false

namespace Propositional

namespace Formula

structure ExpansionStep where
  before : Formula
  pivot : Variable
  value : Bool
  deriving DecidableEq

inductive Expands : Formula → List ExpansionStep → Formula → Prop where
  | nil (f : Formula) : Expands f [] f
  | cons {f g : Formula} {v : Variable} {steps : List ExpansionStep} (b : Bool) :
      f.pivot = some v → Expands (f.substitute v b) steps g → Expands f (⟨f, v, b⟩ :: steps) g

def labels (r : Reading) (steps : List ExpansionStep) : Clause :=
  .ofList (steps.map fun s => if s.value = r.absorbing then .positive s.pivot
    else .negative s.pivot)

def Reaches (r : Reading) (f : Formula) (steps : List ExpansionStep) : Prop :=
  ∃ g, Expands f steps g ∧ g.Constantly r.absorbing ∧
    ∀ s ∈ steps, ¬s.before.Constantly r.absorbing

variable {f g : Formula} {r : Reading} {steps : List ExpansionStep}

theorem labels_cons (s : ExpansionStep) (steps : List ExpansionStep) :
    labels r (s :: steps) = insert (Literal.guard r s.pivot s.value) (labels r steps) := rfl

theorem reaches_nil : Reaches r f [] ↔ f.Constantly r.absorbing := by
  constructor
  · rintro ⟨g, hexp, hg, -⟩
    cases hexp
    exact hg
  · intro h
    exact ⟨f, .nil f, h, fun s hs => absurd hs List.not_mem_nil⟩

theorem reaches_cons {s : ExpansionStep} :
    Reaches r f (s :: steps) ↔ s.before = f ∧ f.pivot = some s.pivot ∧
      ¬f.Constantly r.absorbing ∧ Reaches r (f.substitute s.pivot s.value) steps := by
  constructor
  · rintro ⟨g, hexp, hg, hsteps⟩
    obtain ⟨hs, hrest⟩ := List.forall_mem_cons.mp hsteps
    cases hexp with
    | cons b hv hexp => exact ⟨rfl, hv, hs, g, hexp, hg, hrest⟩
  · rintro ⟨rfl, hv, hf, g, hexp, hg, hsteps⟩
    exact ⟨g, .cons s.value hv hexp, hg, List.forall_mem_cons.mpr ⟨hf, hsteps⟩⟩

theorem Constantly.substitute {b : Bool} (h : f.Constantly b) (v : Variable) (a : Bool) :
    (f.substitute v a).Constantly b := by
  rw [constantly_iff] at h ⊢
  intro value
  rw [eval_substitute, h]

theorem Constantly.of_expands {b : Bool} (h : f.Constantly b) (hexp : Expands f steps g) :
    g.Constantly b := by
  induction hexp with
  | nil f => exact h
  | cons a _ _ ih => exact ih (h.substitute _ a)

theorem Constantly.eq {a b : Bool} (ha : f.Constantly a) (hb : f.Constantly b) : a = b := by
  rw [constantly_iff] at ha hb
  exact (ha fun _ => false).symm.trans (hb fun _ => false)

theorem not_reaches_of_identity (h : f.Constantly r.identity) : ¬Reaches r f steps := by
  rintro ⟨g, hexp, hg, -⟩
  exact r.identity_ne_absorbing ((h.of_expands hexp).eq hg)

theorem reaches_of_absorbing (h : f.Constantly r.absorbing) : Reaches r f steps ↔ steps = [] := by
  cases steps with
  | nil => simpa using reaches_nil.mpr h
  | cons s steps =>
    rw [reaches_cons]
    simp [h]

theorem not_constantly_of_clauses {cs : SortedSet Clause} {b : Bool}
    (h : f.decisionTree.clauseSet r = .clauses cs) : ¬f.Constantly b := by
  intro hconst
  rw [clauseSet_decisionTree_eq_const_iff.mpr hconst] at h
  cases h

/-- What a formula sends up to the node above: each of its expansions with the
guard of its branch, the empty one if it has the absorbing value. -/
theorem mem_guardedBy_decisionTree_iff {l : Literal} {c : Clause}
    (h : ∀ cs, f.decisionTree.clauseSet r = .clauses cs →
      ∀ d, d ∈ cs ↔ ∃ steps, steps ≠ [] ∧ Reaches r f steps ∧ labels r steps = d) :
    c ∈ DecisionTree.guardedBy l r (f.decisionTree.clauseSet r) ↔
      ∃ steps, Reaches r f steps ∧ insert l (labels r steps) = c := by
  cases hs : f.decisionTree.clauseSet r with
  | const b =>
    have hconst : f.Constantly b := clauseSet_decisionTree_eq_const_iff.mp hs
    rcases r.eq_identity_or_absorbing b with rfl | rfl
    · simp [not_reaches_of_identity hconst]
    · simp only [reaches_of_absorbing hconst, exists_eq_left, DecisionTree.guardedBy_absorbing,
        SortedSet.mem_singleton]
      exact eq_comm
  | clauses cs =>
    rw [DecisionTree.guardedBy, SortedSet.mem_map]
    constructor
    · rintro ⟨d, hd, rfl⟩
      obtain ⟨steps, -, hreach, rfl⟩ := (h cs hs d).mp hd
      exact ⟨steps, hreach, rfl⟩
    · rintro ⟨steps, hreach, rfl⟩
      have hne : steps ≠ [] := by
        rintro rfl
        exact not_constantly_of_clauses hs (reaches_nil.mp hreach)
      exact ⟨labels r steps, (h cs hs _).mpr ⟨steps, hne, hreach, rfl⟩, rfl⟩

theorem mem_clauseSet_decisionTree_iff {cs : SortedSet Clause} {c : Clause}
    (hcs : f.decisionTree.clauseSet r = .clauses cs) :
    c ∈ cs ↔ ∃ steps, steps ≠ [] ∧ Reaches r f steps ∧ labels r steps = c := by
  induction f using decisionTree.induct generalizing cs c with
  | case1 f h =>
    rw [decisionTree_of_pivot_none h] at hcs
    cases hcs
  | case2 f v h _ ihl ihh =>
    have ih (b : Bool) (ds : SortedSet Clause)
        (hds : (f.substitute v b).decisionTree.clauseSet r = .clauses ds) (d : Clause) :
        d ∈ ds ↔ ∃ steps, steps ≠ [] ∧ Reaches r (f.substitute v b) steps ∧
          labels r steps = d := by
      cases b with
      | false => exact ihl hds
      | true => exact ihh hds
    rw [mem_clauseSet_decisionTree h hcs]
    constructor
    · rintro ⟨b, hb⟩
      obtain ⟨steps, hreach, rfl⟩ := (mem_guardedBy_decisionTree_iff (ih b)).mp hb
      exact ⟨⟨f, v, b⟩ :: steps, List.cons_ne_nil _ _,
        reaches_cons.mpr ⟨rfl, h, not_constantly_of_clauses hcs, hreach⟩, labels_cons _ _⟩
    · rintro ⟨_ | ⟨s, steps⟩, hne, hreach, rfl⟩
      · exact absurd rfl hne
      · obtain ⟨-, hs, -, hreach⟩ := reaches_cons.mp hreach
        have hv : s.pivot = v := Option.some.inj (hs.symm.trans h)
        rw [hv] at hreach
        refine ⟨s.value, (mem_guardedBy_decisionTree_iff (ih s.value)).mpr ⟨steps, hreach, ?_⟩⟩
        rw [labels_cons, hv]

/-- The clauses of a normal form are the label sets of the expansions of the
canonical form that take a step or more and end in the first formula with the
absorbing value everywhere. -/
theorem mem_normalForm_iff_expands {cs : SortedSet Clause} (h : f.normalForm r = .clauses cs)
    (c : Clause) :
    c ∈ cs ↔ ∃ (steps : List ExpansionStep) (g : Formula),
      Expands f.canonicalize steps g ∧ 1 ≤ steps.length ∧ labels r steps = c ∧
        g.Constantly r.absorbing ∧ ∀ s ∈ steps, ¬s.before.Constantly r.absorbing := by
  rw [normalForm_eq_clauseSet] at h
  rw [mem_clauseSet_decisionTree_iff h]
  refine exists_congr fun steps => ?_
  constructor
  · rintro ⟨hne, ⟨g, hexp, hg, hsteps⟩, hc⟩
    exact ⟨g, hexp, List.length_pos_iff.mpr hne, hc, hg, hsteps⟩
  · rintro ⟨g, hexp, hlen, hc, hg, hsteps⟩
    exact ⟨List.length_pos_iff.mp hlen, ⟨g, hexp, hg, hsteps⟩, hc⟩

def guarded : Formula := .not (.not implication)

theorem mem_normalForm_iff_expands_guarded :
    guarded.normalForm .disjunctive = .clauses implicationCases ∧
      .ofList [.positive .p, .positive .q] ∈ implicationCases ∧
      ∃ (steps : List ExpansionStep) (g : Formula),
        Expands guarded.canonicalize steps g ∧ 1 ≤ steps.length ∧
        labels .disjunctive steps = .ofList [.positive .p, .positive .q] ∧
        g.Constantly true ∧ ∀ s ∈ steps, ¬s.before.Constantly true := by
  have hcases : guarded.normalForm .disjunctive = .clauses implicationCases := by decide +kernel
  have hmem : .ofList [.positive .p, .positive .q] ∈ implicationCases := by decide
  exact ⟨hcases, hmem, (mem_normalForm_iff_expands hcases _).mp hmem⟩

end Formula

end Propositional
