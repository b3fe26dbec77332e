import Propositional.Proofs.Formula.Valuation
import Propositional.Proofs.UnitPropagation.Rounds

/-!
# Recursive propagation computes the closure of the first set

A set of literals is closed under propagation when it holds a literal of a
clause as soon as it holds the opposites of all the others. The forced literals
are the least closed set. Every set that the rounds reach is a residue of the
first one, under literals that are unit clauses of the reached set, and all its
unit clauses are forced. A reached set that a round leaves alone has a closed
set of units, so these are the forced literals; a collapse shows a forced
literal with a forced opposite.
-/

set_option autoImplicit false

namespace Propositional.UnitPropagation

def Closed (cs : SortedSet Clause) (p : Literal → Prop) : Prop :=
  ∀ c ∈ cs, ∀ l ∈ c, (∀ k ∈ c, k ≠ l → p k.negate) → p l

structure IsClosure (cs : SortedSet Clause) (forced : SortedSet Literal) : Prop where
  closed : Closed cs (· ∈ forced)
  least : ∀ p : Literal → Prop, Closed cs p → ∀ l ∈ forced, p l

inductive Forced (cs : SortedSet Clause) : Literal → Prop where
  | of_others {c : Clause} {l : Literal} (hc : c ∈ cs) (hl : l ∈ c)
      (others : ∀ k ∈ c, k ≠ l → Forced cs k.negate) : Forced cs l

variable {cs ds es : SortedSet Clause} {forced : SortedSet Literal} {l : Literal}

theorem forced_closed : Closed cs (Forced cs) := fun _ hc _ hl others => .of_others hc hl others

theorem Forced.mem_of_closed {p : Literal → Prop} (h : Forced cs l) (hp : Closed cs p) : p l := by
  induction h with
  | of_others hc hl _ ih => exact hp _ hc _ hl ih

theorem isClosure_iff : IsClosure cs forced ↔ ∀ l, l ∈ forced ↔ Forced cs l := by
  constructor
  · intro h l
    exact ⟨h.least (Forced cs) forced_closed l, fun hl => hl.mem_of_closed h.closed⟩
  · intro h
    constructor
    · intro c hc l hl others
      exact (h l).mpr (.of_others hc hl fun k hk hne => (h _).mp (others k hk hne))
    · intro p hp l hl
      exact ((h l).mp hl).mem_of_closed hp

/-- Forced literals occur in clauses, so there are finitely many. -/
theorem exists_isClosure (cs : SortedSet Clause) : ∃ forced, IsClosure cs forced := by
  classical
  let occurring : SortedSet Literal := .ofList (cs.toList.flatMap SortedSet.toList)
  refine ⟨occurring.filter (fun l => decide (Forced cs l)), isClosure_iff.mpr fun l => ?_⟩
  rw [SortedSet.mem_filter, decide_eq_true_eq, SortedSet.mem_ofList, List.mem_flatMap]
  apply and_iff_right_of_imp
  rintro ⟨hc, hl, -⟩
  exact ⟨_, hc, hl⟩

structure Reached (cs ds : SortedSet Clause) : Prop where
  exists_residue : ∃ forced, forced ⊆ units ds ∧ ds = residue forced cs
  forced_of_unit : ∀ l ∈ units ds, Forced cs l

theorem Reached.refl (cs : SortedSet Clause) : Reached cs cs := by
  constructor
  · exact ⟨∅, fun l hl => absurd hl (SortedSet.not_mem_empty l), (residue_empty cs).symm⟩
  · intro l hl
    apply Forced.of_others (mem_units.mp hl) (SortedSet.mem_singleton_self l)
    intro k hk hne
    exact absurd (SortedSet.mem_singleton.mp hk) hne

theorem Reached.eq_residue_of_round (h : Reached cs ds) (hround : round ds = .ok es) :
    es = residue (units ds) cs := by
  obtain ⟨forced, hsub, hds⟩ := h.exists_residue
  have hconsistent := (round_eq_ok_iff.mp hround).2.1
  calc es = residue (units ds) ds := eq_residue_of_round_eq_ok hround
    _ = residue (units ds) (residue forced cs) := by rw [← hds]
    _ = residue (units ds) cs := residue_residue hsub hconsistent

theorem forced_of_sdiff_eq_singleton {c : Clause} (hforced : ∀ k ∈ forced, Forced cs k)
    (hc : c ∈ cs) (h : c \ opposites forced = {l}) : Forced cs l := by
  obtain ⟨hl, -, hstruck⟩ := sdiff_opposites_eq_singleton_iff.mp h
  apply Forced.of_others hc hl
  intro k hk hne
  exact hforced _ (mem_opposites.mp (hstruck k hk hne))

theorem Reached.step (h : Reached cs ds) (hround : round ds = .ok es) : Reached cs es := by
  have hes := h.eq_residue_of_round hround
  constructor
  · refine ⟨units ds, fun l hl => mem_units.mpr ?_, hes⟩
    rw [hes]
    exact unit_mem_residue hl
  · intro l hl
    rw [mem_units, hes, mem_residue] at hl
    rcases hl with ⟨k, hk, hkl⟩ | ⟨c, hc, -, hcl⟩
    · have hlk : l = k := SortedSet.mem_singleton.mp (hkl ▸ SortedSet.mem_singleton_self l)
      exact hlk ▸ h.forced_of_unit k hk
    · exact forced_of_sdiff_eq_singleton h.forced_of_unit hc hcl

/-- A clause all of whose literals have forced opposites forces the literals
themselves. -/
theorem exists_clash_of_opposites {c : Clause} (hc : c ∈ cs) (hne : c ≠ ∅)
    (h : ∀ l ∈ c, Forced cs l.negate) : ∃ l, Forced cs l ∧ Forced cs l.negate := by
  obtain ⟨l, hl⟩ := SortedSet.exists_mem_of_ne_empty hne
  exact ⟨l, .of_others hc hl fun k hk _ => h k hk, h l hl⟩

theorem Reached.exists_clash {reason : Collapse} (h : Reached cs ds)
    (hround : round ds = .error reason) (hne : cs ≠ ∅) (hempty : ∅ ∉ cs) :
    ∃ l, Forced cs l ∧ Forced cs l.negate := by
  obtain ⟨forced, hsub, hds⟩ := h.exists_residue
  rcases cause_of_round_eq_error hround with ⟨-, he⟩ | ⟨l, -, hclash⟩ | ⟨-, -, c, hc, hdisj, hstruck⟩
  · have hforced : forced = ∅ := by
      apply SortedSet.eq_empty_iff.mpr
      intro l hl
      have hu : {l} ∈ ds := mem_units.mp (hsub l hl)
      exact SortedSet.not_mem_empty {l} (he ▸ hu)
    rw [hforced, residue_empty] at hds
    exact absurd (hds.symm.trans he) hne
  · obtain ⟨hl, hn⟩ := clash?_eq_some hclash
    exact ⟨l, h.forced_of_unit l hl, h.forced_of_unit _ hn⟩
  · rcases mem_residue.mp (hds ▸ hc) with ⟨l, hl, rfl⟩ | ⟨d, hd, -, rfl⟩
    · exact absurd (hsub l hl) (hdisj l (SortedSet.mem_singleton_self l))
    · apply exists_clash_of_opposites hd (fun hd' => hempty (hd' ▸ hd))
      intro l hl
      apply h.forced_of_unit
      by_cases ho : l ∈ opposites forced
      · exact hsub _ (mem_opposites.mp ho)
      · exact mem_opposites.mp (hstruck l (SortedSet.mem_sdiff.mpr ⟨hl, ho⟩))

/-- Where a round changes nothing, nothing is left to propagate. -/
theorem Reached.closed_units (h : Reached cs ds) (hround : round ds = .ok ds) :
    Closed cs (· ∈ units ds) := by
  obtain ⟨-, hconsistent, hempty, hsame⟩ := round_eq_ok_iff.mp hround
  intro c hc l hl others
  by_cases hdisj : c.Disjoint (units ds)
  · have hleft : c \ opposites (units ds) ∈ residue (units ds) cs :=
      mem_residue.mpr (.inr ⟨c, hc, hdisj, rfl⟩)
    rw [← h.eq_residue_of_round hround] at hleft
    have hstruck : ∀ k ∈ c, k ≠ l → k ∈ opposites (units ds) :=
      fun k hk hne => mem_opposites.mpr (others k hk hne)
    by_cases ho : l ∈ opposites (units ds)
    · have hall : c ⊆ opposites (units ds) := by
        intro k hk
        by_cases hkl : k = l
        · exact hkl ▸ ho
        · exact hstruck k hk hkl
      have hu : units ds ≠ ∅ := SortedSet.ne_empty_of_mem (mem_opposites.mp ho)
      rw [sdiff_opposites_eq_empty_iff.mpr hall, hsame] at hleft
      exact absurd hleft (hempty hu)
    · rw [sdiff_opposites_eq_singleton_iff.mpr ⟨hl, ho, hstruck⟩] at hleft
      exact mem_units.mpr hleft
  -- A unit literal of the clause is `l`, or its opposite would be a unit too.
  · obtain ⟨k, hk, hu⟩ := SortedSet.not_disjoint_iff.mp hdisj
    by_cases hkl : k = l
    · exact hkl ▸ hu
    · exact absurd (others k hk hkl) (hconsistent k hu)

theorem Reached.isClosure_units (h : Reached cs ds) (hround : round ds = .ok ds) :
    IsClosure cs (units ds) :=
  ⟨h.closed_units hround, fun _ hp l hl => (h.forced_of_unit l hl).mem_of_closed hp⟩

theorem optimize_clauses_cases (fallback : Bool) (hne : cs ≠ ∅) (hempty : ∅ ∉ cs) :
    ((∃ l, Forced cs l ∧ Forced cs l.negate) ∧
        (ClauseSet.clauses cs).optimize fallback true = .const fallback) ∨
      ∃ forced, IsClosure cs forced ∧ Consistent forced ∧
        (ClauseSet.clauses cs).optimize fallback true = .clauses (residue forced cs) := by
  apply optimize_of_invariant (Reached cs) (fun s =>
    ((∃ l, Forced cs l ∧ Forced cs l.negate) ∧ s = .const fallback) ∨
      ∃ forced, IsClosure cs forced ∧ Consistent forced ∧ s = .clauses (residue forced cs))
  · exact fun ds es h hround => h.step hround
  · exact fun ds reason h hround => .inl ⟨h.exists_clash hround hne hempty, rfl⟩
  · intro ds es h hround hstop
    have hes : es = ds := by simpa using hstop
    subst hes
    have hconsistent := (round_eq_ok_iff.mp hround).2.1
    exact .inr ⟨_, h.isClosure_units hround, hconsistent,
      congrArg ClauseSet.clauses (h.eq_residue_of_round hround)⟩
  · exact .refl cs

/-- Propagation to the end gives the fallback if the closure of the set clashes
and the residue of the set under its closure otherwise. -/
theorem optimize_eq_residue_closure (hne : cs ≠ ∅) (hempty : ∅ ∉ cs) (fallback : Bool) :
    (∃ forced, IsClosure cs forced) ∧
      ∀ forced, IsClosure cs forced → (ClauseSet.clauses cs).optimize fallback true =
        if Consistent forced then .clauses (residue forced cs) else .const fallback := by
  refine ⟨exists_isClosure cs, fun forced hforced => ?_⟩
  have hmem := isClosure_iff.mp hforced
  rcases optimize_clauses_cases fallback hne hempty with
    ⟨⟨l, hl, hn⟩, hopt⟩ | ⟨other, hother, hconsistent, hopt⟩
  · have hclash : ¬Consistent forced :=
      fun hc => hc l ((hmem l).mpr hl) ((hmem l.negate).mpr hn)
    rw [hopt, if_neg hclash]
  · have heq : forced = other := by
      apply SortedSet.ext
      intro l
      rw [hmem, isClosure_iff.mp hother]
    rw [hopt, heq, if_pos hconsistent]

def chain : SortedSet Clause :=
  .ofList [{.positive .p}, .ofList [.negative .p, .positive .q],
    .ofList [.positive .p, .negative .q]]

theorem isClosure_chain : IsClosure chain (.ofList [.positive .p, .positive .q]) := by
  constructor
  · unfold Closed
    decide
  · intro p hp
    have hfirst : p (.positive .p) := by
      apply hp {.positive .p} (by decide) _ (SortedSet.mem_singleton_self _)
      intro k hk hne
      exact absurd (SortedSet.mem_singleton.mp hk) hne
    have hsecond : p (.positive .q) := by
      apply hp (.ofList [.negative .p, .positive .q]) (by decide) _ (by decide)
      intro k hk hne
      have hkp : k = .negative .p := by revert k; decide
      exact hkp ▸ hfirst
    intro l hl
    have hl' : l = .positive .p ∨ l = .positive .q := by simpa using hl
    rcases hl' with rfl | rfl
    · exact hfirst
    · exact hsecond

theorem optimize_eq_residue_closure_chain :
    chain ≠ ∅ ∧ ∅ ∉ chain ∧
      IsClosure chain (.ofList [.positive .p, .positive .q]) ∧
      (ClauseSet.clauses chain).optimize false true =
        .clauses (.ofList [{.positive .p}, {.positive .q}]) := by
  have hne : chain ≠ ∅ := by decide
  have hempty : ∅ ∉ chain := by decide
  refine ⟨hne, hempty, isClosure_chain, ?_⟩
  rw [(optimize_eq_residue_closure hne hempty false).2 _ isClosure_chain]
  decide

end Propositional.UnitPropagation
