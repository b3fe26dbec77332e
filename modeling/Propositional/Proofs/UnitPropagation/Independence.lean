import Propositional.Proofs.ClauseSet.Meaning
import Propositional.Proofs.UnitPropagation.Closure
import Propositional.Proofs.UnitPropagation.Monotonicity

/-!
# Sets without a common variable are propagated independently

A literal is forced by clauses that mention its variable, so what two sets
without a common variable force together is what each of them forces alone. The
forced literals of one set neither drop a clause of the other nor shorten one.
So if neither set collapses, their union does not, and the result of the union
is the union of the results, after one round as after all of them. A collapse of
either set is one of the union, which has more clauses.
-/

set_option autoImplicit false

namespace Propositional.UnitPropagation

variable {cs ds cs' ds' : SortedSet Clause} {forced more : SortedSet Literal} {c : Clause}
  {l : Literal} {fallback : Bool}

def Apart (c : Clause) (forced : SortedSet Literal) : Prop :=
  ∀ k ∈ c, ∀ l ∈ forced, k.var ≠ l.var

theorem apart_of_disjoint_vars
    (hvars : (ClauseSet.clauses cs).vars.Disjoint (ClauseSet.clauses ds).vars)
    (hmore : ∀ l ∈ more, l.var ∈ (ClauseSet.clauses ds).vars) : ∀ c ∈ cs, Apart c more := by
  intro c hc k hk l hl hkl
  exact hvars _ (ClauseSet.mem_vars_clauses.mpr ⟨c, hc, k, hk, hkl⟩) (hmore l hl)

theorem Consistent.union (hforced : Consistent forced) (hmore : Consistent more)
    (h : ∀ l ∈ forced, ∀ k ∈ more, l.var ≠ k.var) : Consistent (forced ∪ more) := by
  intro l hl hn
  rcases SortedSet.mem_union.mp hl with hl | hl <;> rcases SortedSet.mem_union.mp hn with hn | hn
  · exact hforced l hl hn
  · exact h l hl _ hn rfl
  · exact h _ hn l hl rfl
  · exact hmore l hl hn

theorem disjoint_union_of_apart (h : Apart c more) :
    c.Disjoint (forced ∪ more) ↔ c.Disjoint forced := by
  refine forall₂_congr fun k hk => ?_
  have hmore : k ∉ more := fun hm => h k hk k hm rfl
  rw [SortedSet.mem_union, or_iff_left hmore]

theorem sdiff_opposites_union_of_apart (h : Apart c more) :
    c \ opposites (forced ∪ more) = c \ opposites forced := by
  apply SortedSet.ext
  intro k
  rw [SortedSet.mem_sdiff, SortedSet.mem_sdiff, mem_opposites, mem_opposites]
  refine and_congr_right fun hk => ?_
  have hmore : k.negate ∉ more := fun hm => h k hk _ hm rfl
  rw [SortedSet.mem_union, or_iff_left hmore]

theorem mem_residue_union_of_apart (forced : SortedSet Literal) (c : Clause)
    (h : ∀ d ∈ cs, Apart d more) :
    (∃ d ∈ cs, d.Disjoint (forced ∪ more) ∧ d \ opposites (forced ∪ more) = c) ↔
      ∃ d ∈ cs, d.Disjoint forced ∧ d \ opposites forced = c := by
  refine exists_congr fun d => and_congr_right fun hd => ?_
  rw [disjoint_union_of_apart (h d hd), sdiff_opposites_union_of_apart (h d hd)]

theorem residue_union (hcs : ∀ c ∈ cs, Apart c more) (hds : ∀ d ∈ ds, Apart d forced) :
    residue (forced ∪ more) (cs ∪ ds) = residue forced cs ∪ residue more ds := by
  apply SortedSet.ext
  intro c
  have hleft := mem_residue_union_of_apart forced c hcs
  have hright := mem_residue_union_of_apart more c hds
  rw [SortedSet.union_comm] at hright
  simp only [mem_residue, SortedSet.mem_union, or_and_right, exists_or, hleft, hright]
  exact or_or_or_comm

theorem units_union (cs ds : SortedSet Clause) : units (cs ∪ ds) = units cs ∪ units ds := by
  apply SortedSet.ext
  intro l
  simp only [mem_units, SortedSet.mem_union]

/-- A round of the union is a round of each part. -/
theorem round_union (hcs₀ : ∅ ∉ cs) (hds₀ : ∅ ∉ ds)
    (hvars : (ClauseSet.clauses cs).vars.Disjoint (ClauseSet.clauses ds).vars)
    (hleft : round cs = .ok cs') (hright : round ds = .ok ds') :
    round (cs ∪ ds) = .ok (cs' ∪ ds') := by
  obtain ⟨hcs, hconsistent, -, hcs'⟩ := round_eq_ok_iff.mp hleft
  obtain ⟨-, hconsistent', -, hds'⟩ := round_eq_ok_iff.mp hright
  have hunits : ∀ l ∈ units cs, ∀ k ∈ units ds, l.var ≠ k.var := fun l hl k hk hlk =>
    hvars _ (var_mem_of_mem_units hl) (hlk ▸ var_mem_of_mem_units hk)
  have hresidue : residue (units (cs ∪ ds)) (cs ∪ ds) = cs' ∪ ds' := by
    rw [units_union, hcs', hds']
    exact residue_union (apart_of_disjoint_vars hvars fun _ => var_mem_of_mem_units)
      (apart_of_disjoint_vars hvars.symm fun _ => var_mem_of_mem_units)
  have hkept : ∅ ∉ cs' ∪ ds' := by
    simp [empty_not_mem_of_round_eq_ok hleft hcs₀, empty_not_mem_of_round_eq_ok hright hds₀]
  refine round_eq_ok_iff.mpr ⟨SortedSet.union_ne_empty hcs, ?_, ?_, hresidue.symm⟩
  · rw [units_union]
    exact hconsistent.union hconsistent' hunits
  · intro _
    rw [hresidue]
    exact hkept

theorem Forced.mono (h : Forced cs l) (hsub : cs ⊆ ds) : Forced ds l :=
  h.mem_of_closed fun _ hc _ hl others => .of_others (hsub _ hc) hl others

theorem Forced.var_mem (h : Forced cs l) : l.var ∈ (ClauseSet.clauses cs).vars := by
  cases h with
  | of_others hc hl _ => exact ClauseSet.mem_vars_clauses.mpr ⟨_, hc, l, hl, rfl⟩

theorem forced_union_iff
    (hvars : (ClauseSet.clauses cs).vars.Disjoint (ClauseSet.clauses ds).vars) :
    Forced (cs ∪ ds) l ↔ Forced cs l ∨ Forced ds l := by
  constructor
  · intro h
    induction h with
    | of_others hc hl _ ih =>
      rcases SortedSet.mem_union.mp hc with hc | hc
      · refine .inl (.of_others hc hl fun k hk hne => (ih k hk hne).resolve_right fun hds => ?_)
        exact hvars _ (ClauseSet.mem_vars_clauses.mpr ⟨_, hc, k, hk, rfl⟩) hds.var_mem
      · refine .inr (.of_others hc hl fun k hk hne => (ih k hk hne).resolve_left fun hcs => ?_)
        exact hvars _ hcs.var_mem (ClauseSet.mem_vars_clauses.mpr ⟨_, hc, k, hk, rfl⟩)
  · rintro (h | h)
    · exact h.mono SortedSet.subset_union_left
    · exact h.mono SortedSet.subset_union_right

theorem optimize_eq_clauses_iff (hne : cs ≠ ∅) (hempty : ∅ ∉ cs) :
    (ClauseSet.clauses cs).optimize fallback true = .clauses ds ↔
      ∃ forced, (∀ l, l ∈ forced ↔ Forced cs l) ∧ Consistent forced ∧ ds = residue forced cs := by
  rcases optimize_clauses_cases fallback hne hempty with
    ⟨⟨l, hl, hn⟩, hopt⟩ | ⟨forced, hforced, hconsistent, hopt⟩
  · rw [hopt]
    refine iff_of_false (by simp) ?_
    rintro ⟨forced, hmem, hconsistent, -⟩
    exact hconsistent l ((hmem l).mpr hl) ((hmem _).mpr hn)
  · have hmem := isClosure_iff.mp hforced
    rw [hopt, ClauseSet.clauses.injEq]
    constructor
    · rintro rfl
      exact ⟨forced, hmem, hconsistent, rfl⟩
    · rintro ⟨other, hother, -, rfl⟩
      have hsame : other = forced := SortedSet.ext fun l => (hother l).trans (hmem l).symm
      rw [hsame]

/-- Neither part is disturbed by the other in a run to the end. -/
theorem optimize_union (hcs : cs ≠ ∅) (hds : ds ≠ ∅) (hcs₀ : ∅ ∉ cs) (hds₀ : ∅ ∉ ds)
    (hvars : (ClauseSet.clauses cs).vars.Disjoint (ClauseSet.clauses ds).vars)
    (hleft : (ClauseSet.clauses cs).optimize fallback true = .clauses cs')
    (hright : (ClauseSet.clauses ds).optimize fallback true = .clauses ds') :
    (ClauseSet.clauses (cs ∪ ds)).optimize fallback true = .clauses (cs' ∪ ds') := by
  obtain ⟨forced, hforced, hconsistent, rfl⟩ := (optimize_eq_clauses_iff hcs hcs₀).mp hleft
  obtain ⟨more, hmore, hconsistent', rfl⟩ := (optimize_eq_clauses_iff hds hds₀).mp hright
  have hne : cs ∪ ds ≠ ∅ := SortedSet.union_ne_empty hcs
  have hempty : ∅ ∉ cs ∪ ds := by simp [hcs₀, hds₀]
  have hforcedVars : ∀ l ∈ forced, l.var ∈ (ClauseSet.clauses cs).vars :=
    fun l hl => ((hforced l).mp hl).var_mem
  have hmoreVars : ∀ l ∈ more, l.var ∈ (ClauseSet.clauses ds).vars :=
    fun l hl => ((hmore l).mp hl).var_mem
  refine (optimize_eq_clauses_iff hne hempty).mpr ⟨forced ∪ more, ?_, ?_, ?_⟩
  · intro l
    rw [SortedSet.mem_union, hforced, hmore, forced_union_iff hvars]
  · refine hconsistent.union hconsistent' fun l hl k hk hlk => ?_
    exact hvars _ (hforcedVars l hl) (hlk ▸ hmoreVars k hk)
  · exact (residue_union (apart_of_disjoint_vars hvars hmoreVars)
      (apart_of_disjoint_vars hvars.symm hforcedVars)).symm

/-- A round or a run to the end of the union gives the union of the results. -/
theorem optimize_union_eq_clauses {recursive : Bool} (hcs : cs ≠ ∅) (hds : ds ≠ ∅)
    (hcs₀ : ∅ ∉ cs) (hds₀ : ∅ ∉ ds)
    (hvars : (ClauseSet.clauses cs).vars.Disjoint (ClauseSet.clauses ds).vars)
    (hleft : (ClauseSet.clauses cs).optimize fallback recursive = .clauses cs')
    (hright : (ClauseSet.clauses ds).optimize fallback recursive = .clauses ds') :
    (ClauseSet.clauses (cs ∪ ds)).optimize fallback recursive = .clauses (cs' ∪ ds') := by
  cases recursive with
  | false =>
    rw [optimize_once_eq_clauses_iff] at hleft hright ⊢
    exact round_union hcs₀ hds₀ hvars hleft hright
  | true => exact optimize_union hcs hds hcs₀ hds₀ hvars hleft hright

end Propositional.UnitPropagation

namespace Propositional.ClauseSet

open UnitPropagation

/-- Two sets without a common variable are propagated as if each were alone, in
one round as in all: the union of what they become is what their union becomes,
and a collapse of one of them is a collapse of the union. -/
theorem optimize_union_of_disjoint_vars {cs ds : SortedSet Clause} (hcs : cs ≠ ∅) (hds : ds ≠ ∅)
    (hcs₀ : ∅ ∉ cs) (hds₀ : ∅ ∉ ds) (hvars : (clauses cs).vars.Disjoint (clauses ds).vars)
    (fallback recursive : Bool) :
    (∀ cs' ds', (clauses cs).optimize fallback recursive = clauses cs' →
        (clauses ds).optimize fallback recursive = clauses ds' →
        (clauses (cs ∪ ds)).optimize fallback recursive = clauses (cs' ∪ ds')) ∧
      ((clauses cs).optimize fallback recursive = const fallback ∨
          (clauses ds).optimize fallback recursive = const fallback →
        (clauses (cs ∪ ds)).optimize fallback recursive = const fallback) := by
  have hempty : ∅ ∉ cs ∪ ds := by simp [hcs₀, hds₀]
  constructor
  · exact fun cs' ds' => optimize_union_eq_clauses hcs hds hcs₀ hds₀ hvars
  · rintro (h | h)
    · exact (refines_of_subset SortedSet.subset_union_left).optimize_eq_const hempty hcs h
    · exact (refines_of_subset SortedSet.subset_union_right).optimize_eq_const hempty hds h

def tautologyApart : SortedSet Clause := {.ofList [.positive .r, .negative .r]}

def oppositeApart : SortedSet Clause := .ofList [{.positive .r}, {.negative .r}]

theorem optimize_union_of_disjoint_vars_chain :
    chain ≠ ∅ ∧ tautologyApart ≠ ∅ ∧ ∅ ∉ chain ∧ ∅ ∉ tautologyApart ∧
      (clauses chain).vars.Disjoint (clauses tautologyApart).vars ∧
      (clauses chain).optimize false true = clauses (.ofList [{.positive .p}, {.positive .q}]) ∧
      (clauses tautologyApart).optimize false true = clauses tautologyApart ∧
      (clauses (chain ∪ tautologyApart)).optimize false true =
        clauses (.ofList [{.positive .p}, {.positive .q}] ∪ tautologyApart) ∧
      (clauses oppositeApart).optimize false false = const false ∧
      (clauses (chain ∪ oppositeApart)).optimize false false = const false := by
  have hne : chain ≠ ∅ := by decide
  have hempty : ∅ ∉ chain := by decide
  have hvars : (clauses chain).vars.Disjoint (clauses tautologyApart).vars := by decide
  have hleft : (clauses chain).optimize false true =
      clauses (.ofList [{.positive .p}, {.positive .q}]) := by
    decide +kernel
  have hright : (clauses tautologyApart).optimize false true = clauses tautologyApart := by
    decide +kernel
  have hcollapse : (clauses oppositeApart).optimize false false = const false := by
    decide +kernel
  refine ⟨hne, by decide, hempty, by decide, hvars, hleft, hright, ?_, hcollapse, ?_⟩
  · exact (optimize_union_of_disjoint_vars hne (by decide) hempty (by decide) hvars
      false true).1 _ _ hleft hright
  · exact (optimize_union_of_disjoint_vars hne (by decide) hempty (by decide) (by decide)
      false false).2 (.inr hcollapse)

end Propositional.ClauseSet
