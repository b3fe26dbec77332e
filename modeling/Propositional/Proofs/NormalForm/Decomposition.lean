import Propositional.Proofs.Formula.Canonical
import Propositional.Proofs.NormalForm.Expansion
import Propositional.Proofs.NormalForm.Partition
import Propositional.Proofs.UnitPropagation.FixedPoints
import Propositional.Proofs.UnitPropagation.Independence

/-!
# Minimal forms decompose along the pivots

Every clause of a normal form holds a guard of the pivot, and it is that guard
alone only for a branch with the absorbing value. So there is at most one unit
clause. The round that it forces strikes the opposite guard from the clauses of
the other branch, which do not mention the pivot, and from then on neither
disturbs the other: the minimal form is the unit clause and the minimal form of
that branch. Without a unit clause there is nothing to propagate.
-/

set_option autoImplicit false

namespace Propositional

namespace UnitPropagation

variable {ds ds' : SortedSet Clause} {l : Literal} {fallback : Bool}

theorem insert_negate_disjoint {c : Clause} (h : ∀ k ∈ c, k.var ≠ l.var) :
    SortedSet.Disjoint (insert l.negate c) {l} := by
  intro k hk hl
  rw [SortedSet.mem_singleton] at hl
  subst hl
  rcases SortedSet.mem_insert.mp hk with hn | hk
  · exact k.negate_ne hn.symm
  · exact h k hk rfl

/-- Striking the opposite of a literal undoes adding it. -/
theorem insert_negate_sdiff {c : Clause} (h : ∀ k ∈ c, k.var ≠ l.var) :
    insert l.negate c \ opposites {l} = c := by
  apply SortedSet.ext
  intro k
  rw [SortedSet.mem_sdiff, mem_opposites, SortedSet.mem_insert, SortedSet.mem_singleton]
  constructor
  · rintro ⟨rfl | hk, hne⟩
    · exact absurd l.negate_negate hne
    · exact hk
  · intro hk
    refine ⟨.inr hk, ?_⟩
    rintro rfl
    exact h k hk rfl

/-- A clause with a literal added is no unit clause if it mentioned a variable
and another one. -/
theorem singleton_not_mem_map_insert (hempty : ∅ ∉ ds) (hl : l.var ∉ (ClauseSet.clauses ds).vars)
    (k : Literal) : {k} ∉ ds.map (insert l) := by
  rw [SortedSet.mem_map]
  rintro ⟨d, hd, hk⟩
  obtain ⟨j, hj⟩ := SortedSet.exists_mem_of_ne_empty fun he => hempty (he ▸ hd)
  have hjk : j = k := by
    rw [← SortedSet.mem_singleton, ← hk]
    exact SortedSet.mem_insert.mpr (.inr hj)
  have hlk : l = k := by
    rw [← SortedSet.mem_singleton, ← hk]
    exact SortedSet.mem_insert.mpr (.inl rfl)
  have hvar : j.var = l.var := by rw [hjk, hlk]
  exact hl (ClauseSet.mem_vars_clauses.mpr ⟨d, hd, j, hj, hvar⟩)

section Guarded

variable (hempty : ∅ ∉ ds) (hl : l.var ∉ (ClauseSet.clauses ds).vars)

include hempty hl

theorem units_guarded : units ({{l}} ∪ ds.map (insert l.negate)) = {l} := by
  apply SortedSet.ext
  intro k
  have hrest : {k} ∉ ds.map (insert l.negate) :=
    singleton_not_mem_map_insert (l := l.negate) hempty hl k
  rw [mem_units, SortedSet.mem_union, or_iff_left hrest, SortedSet.mem_singleton,
    SortedSet.mem_singleton]
  constructor
  · intro hk
    exact SortedSet.mem_singleton.mp (hk ▸ SortedSet.mem_singleton_self k)
  · exact congrArg _

/-- The round that a guard forces takes its opposite from the other clauses. -/
theorem residue_guarded :
    residue (units ({{l}} ∪ ds.map (insert l.negate))) ({{l}} ∪ ds.map (insert l.negate)) =
      {{l}} ∪ ds := by
  have hapart (d : Clause) (hd : d ∈ ds) : ∀ k ∈ d, k.var ≠ l.var := fun k hk hkl =>
    hl (ClauseSet.mem_vars_clauses.mpr ⟨d, hd, k, hk, hkl⟩)
  rw [units_guarded hempty hl]
  apply SortedSet.ext
  intro c
  rw [mem_residue, SortedSet.mem_union, SortedSet.mem_singleton]
  constructor
  · rintro (⟨k, hk, rfl⟩ | ⟨d, hd, hdisj, rfl⟩)
    · exact .inl (congrArg _ (SortedSet.mem_singleton.mp hk))
    · rcases SortedSet.mem_union.mp hd with hd | hd
      · rw [SortedSet.mem_singleton.mp hd] at hdisj
        exact absurd (SortedSet.mem_singleton_self l) (hdisj l (SortedSet.mem_singleton_self l))
      · obtain ⟨e, he, rfl⟩ := SortedSet.mem_map.mp hd
        exact .inr ((insert_negate_sdiff (hapart e he)).symm ▸ he)
  · rintro (rfl | hc)
    · exact .inl ⟨l, SortedSet.mem_singleton_self l, rfl⟩
    · have hguarded : insert l.negate c ∈ {{l}} ∪ ds.map (insert l.negate) :=
        SortedSet.mem_union.mpr (.inr (SortedSet.mem_map.mpr ⟨c, hc, rfl⟩))
      exact .inr ⟨_, hguarded, insert_negate_disjoint (hapart c hc),
        insert_negate_sdiff (hapart c hc)⟩

theorem round_guarded : round ({{l}} ∪ ds.map (insert l.negate)) = .ok ({{l}} ∪ ds) := by
  rw [round_eq_ok_iff, residue_guarded hempty hl, units_guarded hempty hl]
  refine ⟨SortedSet.union_ne_empty (SortedSet.singleton_ne_empty _), ?_, fun _ => ?_, rfl⟩
  · intro k hk hn
    rw [SortedSet.mem_singleton] at hk hn
    exact k.negate_ne (hn.trans hk.symm)
  · rw [SortedSet.mem_union, SortedSet.mem_singleton]
    rintro (he | he)
    · exact SortedSet.singleton_ne_empty l he.symm
    · exact hempty he

/-- Beside clauses that do not mention its variable a unit clause stays, and they
are propagated as without it. -/
theorem optimize_guarded (hds : ds ≠ ∅)
    (h : (ClauseSet.clauses ds).optimize fallback true = .clauses ds') :
    (ClauseSet.clauses ({{l}} ∪ ds.map (insert l.negate))).optimize fallback true =
      .clauses ({{l}} ∪ ds') := by
  have hunit : round {{l}} = .ok {{l}} :=
    round_guarded (SortedSet.not_mem_empty ∅) (SortedSet.not_mem_empty l.var)
  have hunitVars : (ClauseSet.clauses {{l}}).vars.Disjoint (ClauseSet.clauses ds).vars := by
    intro v hv
    obtain ⟨c, hc, k, hk, rfl⟩ := ClauseSet.mem_vars_clauses.mp hv
    rw [SortedSet.mem_singleton.mp hc] at hk
    rw [SortedSet.mem_singleton.mp hk]
    exact hl
  have hne : ∅ ∉ ({{l}} : SortedSet Clause) := fun he =>
    SortedSet.singleton_ne_empty l (SortedSet.mem_singleton.mp he).symm
  rw [← optimize_of_round_eq_ok (round_guarded hempty hl)]
  exact optimize_union (SortedSet.singleton_ne_empty _) hds hne hempty hunitVars
    (optimize_of_round_eq_self hunit) h

end Guarded

end UnitPropagation

namespace DecisionTree

variable {r : Reading} {l : Literal} {s : ClauseSet}

theorem guardedBy_eq_map (h : s ≠ .const r.absorbing) :
    guardedBy l r s = (s.clauses?.getD ∅).map (insert l) := by
  cases s with
  | const b =>
    obtain rfl : b = r.identity :=
      (r.eq_identity_or_absorbing b).resolve_right fun hb => h (congrArg _ hb)
    rw [guardedBy_identity]
    rfl
  | clauses cs => rfl

/-- A branch gives a unit clause only if it has the absorbing value. -/
theorem singleton_mem_guardedBy_iff {k : Literal} (hs : s.Canonical) (hl : l.var ∉ s.vars) :
    {k} ∈ guardedBy l r s ↔ s = .const r.absorbing ∧ k = l := by
  cases s with
  | const b =>
    rcases r.eq_identity_or_absorbing b with rfl | rfl
    · simp [r.identity_ne_absorbing]
    · simp [SortedSet.ext_iff, eq_comm]
  | clauses cs =>
    refine iff_of_false ?_ (by simp)
    exact UnitPropagation.singleton_not_mem_map_insert hs.2 hl k

end DecisionTree

namespace Formula

variable {f : Formula} {r : Reading} {v : Variable} {b : Bool} {cs : SortedSet Clause}

theorem normalForm_of_canonical (hf : f.Canonical) :
    f.normalForm r = f.decisionTree.clauseSet r := by
  rw [normalForm_eq_clauseSet, canonicalize_eq_self hf]

theorem not_mem_vars_normalForm_substitute (f : Formula) (v : Variable) (b : Bool) :
    v ∉ ((f.substitute v b).normalForm r).vars := fun hv =>
  (mem_vars_substitute (vars_normalForm_subset _ r v hv)).1 rfl

theorem constantly_of_substitute {a : Bool} (h : (f.substitute v b).Constantly a)
    (h' : (f.substitute v !b).Constantly a) : f.Constantly a := by
  rw [constantly_iff] at h h' ⊢
  intro value
  have hbranch : (f.substitute v (value v)).eval value = a := by
    by_cases hv : value v = b
    · rw [hv, h]
    · rw [Bool.eq_not.mpr hv, h']
  rwa [eval_substitute, Function.update_eq_self] at hbranch

theorem mem_normalForm_iff_guarded (hf : f.Canonical) (hv : f.pivot = some v)
    (hcs : f.normalForm r = .clauses cs) {c : Clause} :
    c ∈ cs ↔ ∃ b, c ∈ DecisionTree.guardedBy (.guard r v b) r
      ((f.substitute v b).normalForm r) := by
  rw [normalForm_of_canonical hf] at hcs
  simp only [normalForm_of_canonical (canonical_substitute hf v _)]
  exact mem_clauseSet_decisionTree hv hcs

theorem eq_union_guarded_of_normalForm (hf : f.Canonical) (hv : f.pivot = some v)
    (hcs : f.normalForm r = .clauses cs) (b : Bool) :
    cs = DecisionTree.guardedBy (.guard r v b) r ((f.substitute v b).normalForm r) ∪
      DecisionTree.guardedBy (.guard r v !b) r ((f.substitute v !b).normalForm r) := by
  apply SortedSet.ext
  intro c
  rw [mem_normalForm_iff_guarded hf hv hcs, SortedSet.mem_union, Bool.exists_bool]
  cases b with
  | false => rfl
  | true => exact or_comm

/-- The unit clauses of a normal form are the guards of branches with the
absorbing value. -/
theorem unit_mem_normalForm_iff (hf : f.Canonical) (hv : f.pivot = some v)
    (hcs : f.normalForm r = .clauses cs) {k : Literal} :
    {k} ∈ cs ↔ ∃ b, (f.substitute v b).normalForm r = .const r.absorbing ∧ k = .guard r v b := by
  rw [mem_normalForm_iff_guarded hf hv hcs]
  refine exists_congr fun b => DecisionTree.singleton_mem_guardedBy_iff ?_ ?_
  · exact canonical_normalForm _ r
  · rw [Literal.guard_var]
    exact not_mem_vars_normalForm_substitute f v b

/-- The two branches of a normal form with clauses do not both have the
absorbing value. -/
theorem normalForm_substitute_ne_absorbing (hcs : f.normalForm r = .clauses cs)
    (h : (f.substitute v b).normalForm r = .const r.absorbing) :
    (f.substitute v !b).normalForm r ≠ .const r.absorbing := by
  intro h'
  have hconst : f.Constantly r.absorbing :=
    constantly_of_substitute (normalForm_eq_const_iff.mp h) (normalForm_eq_const_iff.mp h')
  rw [normalForm_eq_const_iff.mpr hconst] at hcs
  cases hcs

theorem guard_mem_of_mem_normalForm (hf : f.Canonical) (hv : f.pivot = some v)
    (hcs : f.normalForm r = .clauses cs) {c : Clause} (hc : c ∈ cs) :
    .positive v ∈ c ∨ .negative v ∈ c := by
  obtain ⟨b, hb⟩ := (mem_normalForm_iff_guarded hf hv hcs).mp hc
  have hguard : Literal.guard r v b ∈ c := DecisionTree.mem_of_mem_guardedBy hb
  rw [Literal.guard] at hguard
  split at hguard
  · exact .inl hguard
  · exact .inr hguard

theorem unit_unique_of_mem_normalForm (hf : f.Canonical) (hv : f.pivot = some v)
    (hcs : f.normalForm r = .clauses cs) {c d : Clause} (hc : c ∈ cs) (hd : d ∈ cs)
    (hcu : c.size = 1) (hdu : d.size = 1) : c = d := by
  obtain ⟨k, rfl⟩ := SortedSet.size_eq_one_iff.mp hcu
  obtain ⟨j, rfl⟩ := SortedSet.size_eq_one_iff.mp hdu
  obtain ⟨a, ha, rfl⟩ := (unit_mem_normalForm_iff hf hv hcs).mp hc
  obtain ⟨b, hb, rfl⟩ := (unit_mem_normalForm_iff hf hv hcs).mp hd
  by_cases hba : b = a
  · rw [hba]
  · rw [Bool.eq_not.mpr hba] at hb
    exact absurd hb (normalForm_substitute_ne_absorbing hcs ha)

theorem exists_normalForm_of_substitute_ne {a : Bool}
    (h : (f.substitute v b).normalForm r = .const a)
    (h' : (f.substitute v !b).normalForm r ≠ .const a) : ∃ cs, f.normalForm r = .clauses cs := by
  cases hcs : f.normalForm r with
  | const c =>
    have hconst := normalForm_eq_const_iff.mp hcs
    have hca : c = a := (hconst.substitute v b).eq (normalForm_eq_const_iff.mp h)
    exact absurd (normalForm_eq_const_iff.mpr (hca ▸ hconst.substitute v !b)) h'
  | clauses cs => exact ⟨cs, rfl⟩

theorem exists_minimalForm_eq_clauses (hcs : f.normalForm r = .clauses cs) :
    ∃ ds, f.minimalForm r = .clauses ds := by
  cases hds : f.minimalForm r with
  | const c =>
    rw [normalForm_eq_const_iff.mpr (minimalForm_eq_const_iff.mp hds)] at hcs
    cases hcs
  | clauses ds => exact ⟨ds, rfl⟩

/-- A branch with the absorbing value gives its guard, and the other branch its
minimal form. -/
theorem minimalForm_of_absorbing_branch (hf : f.Canonical) (hv : f.pivot = some v)
    (h : (f.substitute v b).normalForm r = .const r.absorbing)
    (h' : (f.substitute v !b).normalForm r ≠ .const r.absorbing) :
    f.minimalForm r = .clauses ({{Literal.guard r v b}} ∪
      ((f.substitute v !b).minimalForm r).clauses?.getD ∅) := by
  have hl : (Literal.guard r v b).var ∉ ((f.substitute v !b).normalForm r).vars := by
    rw [Literal.guard_var]
    exact not_mem_vars_normalForm_substitute f v _
  obtain ⟨cs, hcs⟩ := exists_normalForm_of_substitute_ne h h'
  rw [minimalForm, hcs, eq_union_guarded_of_normalForm hf hv hcs b, h,
    DecisionTree.guardedBy_absorbing, Literal.guard_not, DecisionTree.guardedBy_eq_map h']
  cases hs : (f.substitute v !b).normalForm r with
  | const a =>
    rw [minimalForm, hs]
    have hround := UnitPropagation.round_guarded (SortedSet.not_mem_empty ∅)
      (SortedSet.not_mem_empty (Literal.guard r v b).var)
    exact UnitPropagation.optimize_of_round_eq_self hround
  | clauses ds =>
    obtain ⟨hne, hempty⟩ : (ClauseSet.clauses ds).Canonical := hs ▸ canonical_normalForm _ r
    obtain ⟨ds', hds'⟩ := exists_minimalForm_eq_clauses hs
    rw [hds']
    rw [minimalForm, hs] at hds'
    exact UnitPropagation.optimize_guarded hempty (hs ▸ hl) hne hds'

theorem minimalForm_of_no_absorbing_branch (hf : f.Canonical) (hv : f.pivot = some v)
    (h : ∀ b, (f.substitute v b).normalForm r ≠ .const r.absorbing) :
    f.minimalForm r = f.normalForm r := by
  rw [minimalForm]
  cases hcs : f.normalForm r with
  | const b => rfl
  | clauses cs =>
    have hunits : UnitPropagation.units cs = ∅ := by
      rw [SortedSet.eq_empty_iff]
      intro k hk
      obtain ⟨b, hb, -⟩ := (unit_mem_normalForm_iff hf hv hcs).mp (UnitPropagation.mem_units.mp hk)
      exact h b hb
    obtain ⟨hne, -⟩ : (ClauseSet.clauses cs).Canonical := hcs ▸ canonical_normalForm f r
    exact UnitPropagation.optimize_of_round_eq_self
      (UnitPropagation.round_of_units_eq_empty hne hunits)

structure Decomposes (f : Formula) (r : Reading) (v : Variable) : Prop where
  holds_variable : ∀ cs, f.normalForm r = .clauses cs → ∀ c ∈ cs,
    .positive v ∈ c ∨ .negative v ∈ c
  unit_unique : ∀ cs, f.normalForm r = .clauses cs → ∀ c ∈ cs, ∀ d ∈ cs,
    c.size = 1 → d.size = 1 → c = d
  absorbing_branch : (f.substitute v r.absorbing).normalForm r = .const r.absorbing →
    (f.substitute v r.identity).normalForm r ≠ .const r.absorbing →
    f.minimalForm r = .clauses ({{.positive v}} ∪
      ((f.substitute v r.identity).minimalForm r).clauses?.getD ∅)
  identity_branch : (f.substitute v r.identity).normalForm r = .const r.absorbing →
    (f.substitute v r.absorbing).normalForm r ≠ .const r.absorbing →
    f.minimalForm r = .clauses ({{.negative v}} ∪
      ((f.substitute v r.absorbing).minimalForm r).clauses?.getD ∅)
  both_branches : (f.substitute v r.absorbing).normalForm r = .const r.absorbing →
    (f.substitute v r.identity).normalForm r = .const r.absorbing →
    f.minimalForm r = .const r.absorbing
  neither_branch : (f.substitute v r.absorbing).normalForm r ≠ .const r.absorbing →
    (f.substitute v r.identity).normalForm r ≠ .const r.absorbing →
    f.minimalForm r = f.normalForm r

theorem decomposes_of_pivot (hf : f.Canonical) (hv : f.pivot = some v) (r : Reading) :
    f.Decomposes r v where
  holds_variable _ hcs _ hc := guard_mem_of_mem_normalForm hf hv hcs hc
  unit_unique _ hcs _ hc _ hd := unit_unique_of_mem_normalForm hf hv hcs hc hd
  absorbing_branch h h' := by
    have hguard : Literal.guard r v r.absorbing = .positive v := if_pos rfl
    rw [← r.not_absorbing] at h' ⊢
    rw [minimalForm_of_absorbing_branch hf hv h h', hguard]
  identity_branch h h' := by
    have hguard : Literal.guard r v r.identity = .negative v := if_neg r.identity_ne_absorbing
    rw [minimalForm_of_absorbing_branch hf hv h h', hguard]
    rfl
  both_branches h h' := by
    rw [← r.not_absorbing] at h'
    rw [normalForm_eq_const_iff] at h h'
    exact minimalForm_eq_const_iff.mpr (constantly_of_substitute h h')
  neither_branch h h' := by
    apply minimalForm_of_no_absorbing_branch hf hv
    intro b
    rcases r.eq_identity_or_absorbing b with rfl | rfl
    · exact h'
    · exact h

/-- A canonical formula with a variable decomposes along its pivot. -/
theorem minimalForm_decomposes (hf : f.Canonical) (hvars : f.vars ≠ ∅) (r : Reading) :
    ∃ v, f.pivot = some v ∧ f.Decomposes r v := by
  obtain ⟨w, hw⟩ := SortedSet.exists_mem_of_ne_empty hvars
  cases hv : f.pivot with
  | none =>
    rw [mem_vars, pivot_eq_none_iff.mp hv] at hw
    exact absurd hw List.not_mem_nil
  | some v => exact ⟨v, rfl, decomposes_of_pivot hf hv r⟩

def failing : Formula := .not (.binary .implies (.var .p) (.var .q))

theorem minimalForm_decomposes_failing :
    failing.Canonical ∧ failing.vars ≠ ∅ ∧ failing.pivot = some .p ∧
      failing.normalForm .conjunctive =
        .clauses (.ofList [{.positive .p}, .ofList [.negative .p, .negative .q]]) ∧
      failing.minimalForm .conjunctive = .clauses ({{.positive .p}} ∪ {{.negative .q}}) := by
  have hf : failing.Canonical := by decide
  have hvars : failing.vars ≠ ∅ := by decide
  have hnormal : failing.normalForm .conjunctive =
      .clauses (.ofList [{.positive .p}, .ofList [.negative .p, .negative .q]]) := by
    decide +kernel
  have habsorbing : (failing.substitute .p false).normalForm .conjunctive = .const false := by
    decide +kernel
  have hother : (failing.substitute .p true).normalForm .conjunctive ≠ .const false := by
    decide +kernel
  have hrest : (failing.substitute .p true).minimalForm .conjunctive =
      .clauses {{.negative .q}} := by
    decide +kernel
  obtain ⟨v, hv, h⟩ := minimalForm_decomposes hf hvars .conjunctive
  obtain rfl : v = .p := Option.some.inj (hv.symm.trans (by decide))
  refine ⟨hf, hvars, hv, hnormal, ?_⟩
  have hminimal := h.absorbing_branch habsorbing hother
  rw [Reading.identity, hrest] at hminimal
  exact hminimal

end Formula

end Propositional
