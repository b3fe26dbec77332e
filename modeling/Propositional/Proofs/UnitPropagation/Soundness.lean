import Propositional.Proofs.ClauseSet.Meaning
import Propositional.Proofs.UnitPropagation.Rounds

/-!
# Unit propagation preserves meaning

A clause decides a set in the same way before and after a round: a clause that
was dropped shares a literal with a unit clause that decides whenever it does,
and where a struck literal is not absorbing its opposite is a unit clause that
decides. A round collapses only if some clause decides under all values. So in
both readings the absorbing value is the right fallback, and the one exception
is the set without clauses, whose value is the identity.
-/

set_option autoImplicit false

namespace Propositional.UnitPropagation

variable {cs ds : SortedSet Clause} {r : Reading} {value : Variable → Bool}

theorem decided_of_mem_units {l : Literal} (hl : l ∈ units cs)
    (heval : l.eval value = r.absorbing) : ClauseSet.Decided cs r value :=
  ⟨{l}, mem_units.mp hl, Clause.decides_singleton.mpr heval⟩

/-- A clause decides the set once its literals outside the struck ones have the
absorbing value: a struck literal without it has an opposite that decides. -/
theorem decided_of_decides_sdiff {c : Clause} (hc : c ∈ cs)
    (h : Clause.Decides (c \ opposites (units cs)) r value) : ClauseSet.Decided cs r value := by
  by_cases hall : Clause.Decides c r value
  · exact ⟨c, hc, hall⟩
  · obtain ⟨l, hl, hne⟩ : ∃ l ∈ c, l.eval value ≠ r.absorbing := by
      simpa [Clause.Decides] using hall
    have hneg : l.negate ∈ units cs := by
      apply Classical.byContradiction
      intro hn
      exact hne (h l (SortedSet.mem_sdiff.mpr ⟨hl, fun ho => hn (mem_opposites.mp ho)⟩))
    apply decided_of_mem_units hneg
    rw [Literal.eval_negate]
    exact Reading.not_eq_absorbing_iff.mpr hne

theorem decided_residue_iff :
    ClauseSet.Decided (residue (units cs) cs) r value ↔ ClauseSet.Decided cs r value := by
  constructor
  · rintro ⟨c, hc, hdec⟩
    rcases mem_residue.mp hc with ⟨l, hl, rfl⟩ | ⟨d, hd, -, rfl⟩
    · exact ⟨{l}, mem_units.mp hl, hdec⟩
    · exact decided_of_decides_sdiff hd hdec
  · rintro ⟨c, hc, hdec⟩
    by_cases hdisj : c.Disjoint (units cs)
    · have hkept : c \ opposites (units cs) ∈ residue (units cs) cs :=
        mem_residue.mpr (.inr ⟨c, hc, hdisj, rfl⟩)
      exact ⟨_, hkept, hdec.mono fun l hl => (SortedSet.mem_sdiff.mp hl).1⟩
    · obtain ⟨l, hl, hu⟩ := SortedSet.not_disjoint_iff.mp hdisj
      exact ⟨{l}, unit_mem_residue hu, Clause.decides_singleton.mpr (hdec l hl)⟩

theorem decided_of_round_eq_error {reason : Collapse} (hne : cs ≠ ∅)
    (h : round cs = .error reason) : ClauseSet.Decided cs r value := by
  rcases cause_of_round_eq_error h with ⟨-, he⟩ | ⟨l, -, hclash⟩ | ⟨-, -, c, hc, -, hsub⟩
  · exact absurd he hne
  · obtain ⟨hl, hn⟩ := clash?_eq_some hclash
    by_cases heval : l.eval value = r.absorbing
    · exact decided_of_mem_units hl heval
    · apply decided_of_mem_units hn
      rw [Literal.eval_negate]
      exact Reading.not_eq_absorbing_iff.mpr heval
  · apply decided_of_decides_sdiff hc
    intro l hl
    have hl' := SortedSet.mem_sdiff.mp hl
    exact absurd (hsub l hl'.1) hl'.2

theorem decided_iff_of_round_eq_ok (h : round cs = .ok ds) :
    ClauseSet.Decided ds r value ↔ ClauseSet.Decided cs r value := by
  rw [eq_residue_of_round_eq_ok h]
  exact decided_residue_iff

theorem ne_empty_of_round_eq_ok (h : round cs = .ok ds) : ds ≠ ∅ := by
  obtain ⟨hne, -, -, rfl⟩ := round_eq_ok_iff.mp h
  by_cases hu : units cs = ∅
  · rwa [hu, residue_empty]
  · exact residue_ne_empty hu cs

theorem empty_not_mem_of_round_eq_ok (h : round cs = .ok ds) (hcs : ∅ ∉ cs) : ∅ ∉ ds := by
  obtain ⟨-, -, hempty, rfl⟩ := round_eq_ok_iff.mp h
  by_cases hu : units cs = ∅
  · rwa [hu, residue_empty]
  · exact hempty hu

theorem var_mem_of_mem_units {l : Literal} (h : l ∈ units cs) :
    l.var ∈ (ClauseSet.clauses cs).vars :=
  ClauseSet.mem_vars_clauses.mpr ⟨{l}, mem_units.mp h, l, SortedSet.mem_singleton_self l, rfl⟩

theorem vars_subset_of_round_eq_ok (h : round cs = .ok ds) :
    (ClauseSet.clauses ds).vars ⊆ (ClauseSet.clauses cs).vars := by
  intro v hv
  rw [eq_residue_of_round_eq_ok h, ClauseSet.mem_vars_clauses] at hv
  rw [ClauseSet.mem_vars_clauses]
  obtain ⟨c, hc, l, hl, hlv⟩ := hv
  rcases mem_residue.mp hc with ⟨k, hk, rfl⟩ | ⟨d, hd, -, rfl⟩
  · exact ⟨{k}, mem_units.mp hk, l, hl, hlv⟩
  · exact ⟨d, hd, l, (SortedSet.mem_sdiff.mp hl).1, hlv⟩

end UnitPropagation

namespace ClauseSet

open UnitPropagation

theorem eval_optimize {s : ClauseSet} {recursive : Bool} {r : Reading}
    {value : Variable → Bool} (hne : s ≠ clauses ∅) :
    (s.optimize r.absorbing recursive).eval r value = s.eval r value := by
  cases s with
  | const b => rfl
  | clauses cs =>
    have hcs : cs ≠ ∅ := fun h => hne (congrArg clauses h)
    -- A collapse for want of clauses would be wrong, so the invariant excludes it.
    apply optimize_of_invariant
      (fun ds => ds ≠ ∅ ∧ (Decided ds r value ↔ Decided cs r value))
      (fun s => s.eval r value = (clauses cs).eval r value)
    · rintro ds es ⟨-, hiff⟩ hround
      exact ⟨ne_empty_of_round_eq_ok hround, (decided_iff_of_round_eq_ok hround).trans hiff⟩
    · rintro ds reason ⟨hds, hiff⟩ hround
      have hdec := hiff.mp (decided_of_round_eq_error hds hround)
      exact (eval_clauses_eq_absorbing_iff.mpr hdec).symm
    · rintro ds es ⟨-, hiff⟩ hround -
      apply eval_clauses_eq_of_decided_iff
      rw [decided_iff_of_round_eq_ok hround, hiff, eval_clauses_eq_absorbing_iff]
    · exact ⟨hcs, Iff.rfl⟩

theorem vars_optimize_subset (s : ClauseSet) (fallback recursive : Bool) :
    (s.optimize fallback recursive).vars ⊆ s.vars := by
  cases s with
  | const b => exact fun v hv => hv
  | clauses cs =>
    apply optimize_of_invariant
      (fun ds => (clauses ds).vars ⊆ (clauses cs).vars) (fun s => s.vars ⊆ (clauses cs).vars)
    · intro ds es hsub hround v hv
      exact hsub v (vars_subset_of_round_eq_ok hround v hv)
    · intro ds reason _ _ v hv
      exact absurd hv (SortedSet.not_mem_empty v)
    · intro ds es hsub hround _ v hv
      exact hsub v (vars_subset_of_round_eq_ok hround v hv)
    · exact fun v hv => hv

theorem optimize_ne_no_clauses (s : ClauseSet) (fallback recursive : Bool) :
    s.optimize fallback recursive ≠ clauses ∅ := by
  cases s with
  | const b => simp [optimize]
  | clauses cs =>
    apply optimize_of_invariant (fun _ => True) (fun s => s ≠ clauses ∅)
    · exact fun _ _ _ _ => trivial
    · intro ds reason _ _
      simp
    · intro ds es _ hround _ h
      exact ne_empty_of_round_eq_ok hround (ClauseSet.clauses.inj h)
    · trivial

theorem canonical_optimize {s : ClauseSet} (fallback recursive : Bool) (h : s.Canonical) :
    (s.optimize fallback recursive).Canonical := by
  cases s with
  | const b => trivial
  | clauses cs =>
    apply optimize_of_invariant (fun ds => ∅ ∉ ds) Canonical
    · exact fun ds es hds hround => empty_not_mem_of_round_eq_ok hround hds
    · exact fun ds reason _ _ => trivial
    · intro ds es hds hround _
      exact ⟨ne_empty_of_round_eq_ok hround, empty_not_mem_of_round_eq_ok hround hds⟩
    · exact h.2

/-- Propagation with the absorbing value as its fallback keeps the value of
every set but the one without clauses, in both readings and for one round as
for all. No set gives one without clauses, and degenerate shapes are not made. -/
theorem optimize_preserves_meaning (s : ClauseSet) (recursive : Bool) :
    (s ≠ clauses ∅ → ∀ (r : Reading) (env : Assignment) (b : Bool),
      s.eval? r env = some b → (s.optimize r.absorbing recursive).eval? r env = some b) ∧
    (s = clauses ∅ → ∀ (r : Reading) (env : Assignment),
      s.optimize r.absorbing recursive = const r.absorbing ∧
        s.eval? r env = some (!r.absorbing)) ∧
    ∀ fallback : Bool, s.optimize fallback recursive ≠ clauses ∅ ∧
      (s.Canonical → (s.optimize fallback recursive).Canonical) := by
  refine ⟨?_, ?_, ?_⟩
  · intro hne r env b h
    obtain ⟨hcovers, heval⟩ := eval?_eq_some_iff.mp h
    apply eval?_eq_some_iff.mpr
    exact ⟨hcovers.mono (vars_optimize_subset s r.absorbing recursive),
      by rw [eval_optimize hne, heval]⟩
  · rintro rfl r env
    constructor
    · rw [optimize, run]
      rfl
    · cases r <;> rfl
  · intro fallback
    exact ⟨optimize_ne_no_clauses s fallback recursive, canonical_optimize fallback recursive⟩

def tautologyAndUnit : SortedSet Clause :=
  .ofList [.ofList [.positive .p, .negative .p], {.positive .q},
    .ofList [.positive .p, .negative .q]]

theorem optimize_preserves_meaning_tautologyAndUnit :
    clauses tautologyAndUnit ≠ clauses ∅ ∧
      (clauses tautologyAndUnit).eval? .conjunctive (.ofList [(.p, false), (.q, true)]) =
        some false ∧
      ((clauses tautologyAndUnit).optimize Reading.conjunctive.absorbing true).eval? .conjunctive
        (.ofList [(.p, false), (.q, true)]) = some false :=
  ⟨by decide, by decide, (optimize_preserves_meaning (clauses tautologyAndUnit) true).1
    (by decide) .conjunctive _ false (by decide)⟩

end ClauseSet

end Propositional
