import Propositional.ClauseSet.Basic

/-!
# Unit propagation

A unit clause forces its literal. In one round every other clause that shares
a literal with the forced ones is dropped, and the opposites of the forced
literals are struck from the clauses that remain. A round collapses when there
are no clauses, when a literal and its opposite are both forced, or when a
clause loses all its literals. What a round leaves is looked at for no clauses
once more, which the forced literals rule out. A round that changes the set
lowers the total number of literals in it, so repeating rounds until nothing
changes ends.
-/

set_option autoImplicit false

namespace Propositional

namespace Clause

def unit? (c : Clause) : Option Literal :=
  match c.toList with
  | [l] => some l
  | _ => none

theorem unit?_eq_some_iff {c : Clause} {l : Literal} : unit? c = some l ↔ c = {l} := by
  rw [← SortedSet.toList_inj, unit?]
  change _ ↔ c.toList = [l]
  split <;> simp_all

theorem isSome_unit?_iff {c : Clause} : (unit? c).isSome = true ↔ ∃ l, c = {l} := by
  simp [Option.isSome_iff_exists, unit?_eq_some_iff]

end Clause

inductive Collapse where
  | noClauses
  | contradiction (l : Literal)
  | emptiedClause
  deriving DecidableEq

namespace UnitPropagation

variable {forced : SortedSet Literal} {cs ds : SortedSet Clause} {c : Clause} {l : Literal}

def units (cs : SortedSet Clause) : SortedSet Literal := cs.filterMap Clause.unit?

theorem mem_units : l ∈ units cs ↔ {l} ∈ cs := by
  simp [units, Clause.unit?_eq_some_iff]

theorem not_disjoint_of_unit (h : {l} ∈ cs) : ¬SortedSet.Disjoint {l} (units cs) :=
  SortedSet.not_disjoint_iff.mpr ⟨l, SortedSet.mem_singleton_self l, mem_units.mpr h⟩

def opposites (forced : SortedSet Literal) : SortedSet Literal := forced.map Literal.negate

theorem mem_opposites : l ∈ opposites forced ↔ l.negate ∈ forced := by
  rw [opposites, SortedSet.mem_map]
  constructor
  · rintro ⟨k, hk, rfl⟩
    simpa using hk
  · intro h
    exact ⟨l.negate, h, l.negate_negate⟩

def clash? (forced : SortedSet Literal) : Option Literal :=
  forced.toList.find? (· ∈ opposites forced)

/-- The clauses without a forced literal, each less the opposites of the forced
ones. -/
def remainders (forced : SortedSet Literal) (cs : SortedSet Clause) : SortedSet Clause :=
  (cs.filter (·.Disjoint forced)).map (· \ opposites forced)

def residue (forced : SortedSet Literal) (cs : SortedSet Clause) : SortedSet Clause :=
  forced.map (fun l => {l}) ∪ remainders forced cs

def round (cs : SortedSet Clause) : Except Collapse (SortedSet Clause) :=
  if cs = ∅ then .error .noClauses
  else if units cs = ∅ then .ok cs
  else match clash? (units cs) with
    | some l => .error (.contradiction l)
    | none =>
      if ∅ ∈ remainders (units cs) cs then .error .emptiedClause
      else if residue (units cs) cs = ∅ then .error .noClauses
      else .ok (residue (units cs) cs)

theorem mem_remainders :
    c ∈ remainders forced cs ↔ ∃ d ∈ cs, d.Disjoint forced ∧ d \ opposites forced = c := by
  simp [remainders, and_assoc]

theorem mem_residue :
    c ∈ residue forced cs ↔
      (∃ l ∈ forced, {l} = c) ∨ ∃ d ∈ cs, d.Disjoint forced ∧ d \ opposites forced = c := by
  rw [residue, SortedSet.mem_union, SortedSet.mem_map, mem_remainders]

theorem unit_mem_residue (h : l ∈ forced) : {l} ∈ residue forced cs :=
  mem_residue.mpr (.inl ⟨l, h, rfl⟩)

/-- Where literals are forced the last look for no clauses finds their units. -/
theorem residue_ne_empty (h : forced ≠ ∅) (cs : SortedSet Clause) : residue forced cs ≠ ∅ := by
  obtain ⟨l, hl⟩ := SortedSet.exists_mem_of_ne_empty h
  exact SortedSet.ne_empty_of_mem (unit_mem_residue hl)

theorem round_of_units_ne_empty (hne : cs ≠ ∅) (h : units cs ≠ ∅) :
    round cs = match clash? (units cs) with
      | some l => .error (.contradiction l)
      | none =>
        if ∅ ∈ remainders (units cs) cs then .error .emptiedClause
        else .ok (residue (units cs) cs) := by
  rw [round, if_neg hne, if_neg h, if_neg (residue_ne_empty h cs)]

def reduce (forced : SortedSet Literal) (c : Clause) : Option Clause :=
  if (Clause.unit? c).isSome then some c
  else if c.Disjoint forced then some (c \ opposites forced)
  else none

theorem filterMap_reduce_eq_residue (cs : SortedSet Clause) :
    cs.filterMap (reduce (units cs)) = residue (units cs) cs := by
  apply SortedSet.ext
  intro c
  rw [SortedSet.mem_filterMap, mem_residue]
  constructor
  · rintro ⟨d, hd, hred⟩
    rw [reduce] at hred
    by_cases hu : (Clause.unit? d).isSome = true
    · have hdc : d = c := by simpa [hu] using hred
      obtain ⟨l, hl⟩ := Clause.isSome_unit?_iff.mp hu
      exact .inl ⟨l, mem_units.mpr (hl ▸ hd), hl ▸ hdc⟩
    · by_cases hdisj : d.Disjoint (units cs)
      · rw [if_neg hu, if_pos hdisj, Option.some.injEq] at hred
        exact .inr ⟨d, hd, hdisj, hred⟩
      · simp [hu, hdisj] at hred
  · rintro (⟨l, hl, rfl⟩ | ⟨d, hd, hdisj, rfl⟩)
    · have hu : (Clause.unit? {l}).isSome = true := Clause.isSome_unit?_iff.mpr ⟨l, rfl⟩
      exact ⟨{l}, mem_units.mp hl, by rw [reduce, if_pos hu]⟩
    · have hu : ¬(Clause.unit? d).isSome = true := by
        intro hu
        obtain ⟨l, rfl⟩ := Clause.isSome_unit?_iff.mp hu
        exact not_disjoint_of_unit hd hdisj
      exact ⟨d, hd, by rw [reduce, if_neg hu, if_pos hdisj]⟩

def weight (l : List Clause) : Nat := (l.flatMap SortedSet.toList).length

theorem weight_cons (c : Clause) (l : List Clause) : weight (c :: l) = c.size + weight l := by
  rw [weight, List.flatMap_cons, List.length_append]
  rfl

theorem weight_insertSorted_le (c : Clause) (l : List Clause) :
    weight (SortedSet.insertSorted c l) ≤ c.size + weight l := by
  induction l with
  | nil => exact Nat.le_of_eq (weight_cons c [])
  | cons d l ih =>
    rw [SortedSet.insertSorted, weight_cons]
    cases compare c d with
    | lt => simp only [weight_cons, Nat.le_refl]
    | eq => simp only [weight_cons, Nat.le_add_left]
    | gt =>
      simp only [weight_cons]
      omega

theorem weight_ofList_le (l : List Clause) : weight (SortedSet.ofList l).toList ≤ weight l := by
  induction l with
  | nil => exact Nat.le_refl _
  | cons c l ih =>
    have hinsert := weight_insertSorted_le c (SortedSet.ofList l).toList
    rw [weight_cons]
    exact Nat.le_trans hinsert (Nat.add_le_add_left ih _)

theorem reduce_shrinks (forced : SortedSet Literal) (c : Clause) :
    reduce forced c = some c ∨ (reduce forced c).elim 0 SortedSet.size < c.size := by
  rw [reduce]
  by_cases hu : (Clause.unit? c).isSome
  · simp [hu]
  rw [if_neg hu]
  by_cases hd : c.Disjoint forced
  · rw [if_pos hd]
    by_cases hs : ∀ l ∈ c, l ∉ opposites forced
    · left
      rw [Option.some.injEq]
      exact SortedSet.ext fun l => by simpa using hs l
    · simp only [Classical.not_forall, Classical.not_not] at hs
      obtain ⟨l, hl, hn⟩ := hs
      right
      exact SortedSet.size_filter_lt hl (by simp [hn])
  · rw [if_neg hd]
    right
    simp only [SortedSet.Disjoint, Classical.not_forall] at hd
    obtain ⟨l, hl, -⟩ := hd
    exact List.length_pos_of_mem hl

theorem weight_filterMap_reduce_le (forced : SortedSet Literal) (l : List Clause) :
    weight (l.filterMap (reduce forced)) ≤ weight l := by
  induction l with
  | nil => simp
  | cons c l ih =>
    have hc := reduce_shrinks forced c
    cases hr : reduce forced c <;>
      simp_all only [Option.elim, List.filterMap_cons, weight_cons] <;> grind

theorem filterMap_reduce_shrinks (forced : SortedSet Literal) (l : List Clause) :
    (∀ c ∈ l, reduce forced c = some c) ∨ weight (l.filterMap (reduce forced)) < weight l := by
  induction l with
  | nil => simp
  | cons c l ih =>
    rcases reduce_shrinks forced c with hc | hc
    · simpa [hc, weight_cons] using ih
    · right
      have hle := weight_filterMap_reduce_le forced l
      cases hr : reduce forced c <;>
        simp_all only [Option.elim, List.filterMap_cons, weight_cons] <;> omega

theorem weight_residue_lt (hne : residue (units cs) cs ≠ cs) :
    weight (residue (units cs) cs).toList < weight cs.toList := by
  rw [← filterMap_reduce_eq_residue] at hne ⊢
  rcases filterMap_reduce_shrinks (units cs) cs.toList with hs | hs
  · refine absurd (SortedSet.ext fun c => ?_) hne
    rw [SortedSet.mem_filterMap]
    constructor
    · rintro ⟨d, hd, hdc⟩
      rw [hs d hd, Option.some.injEq] at hdc
      exact hdc ▸ hd
    · exact fun hc => ⟨c, hc, hs c hc⟩
  · exact Nat.lt_of_le_of_lt (weight_ofList_le _) hs

theorem weight_round_lt (h : round cs = .ok ds) (hne : ds ≠ cs) :
    weight ds.toList < weight cs.toList := by
  rw [round] at h
  split at h
  · cases h
  split at h
  · cases h
    exact absurd rfl hne
  split at h
  · cases h
  split at h
  · cases h
  split at h
  · cases h
  cases h
  exact weight_residue_lt hne

inductive Run where
  | collapsed (reason : Collapse)
  | settled (before after : SortedSet Clause)
  | absorbed (before after : SortedSet Clause) (rest : Run)

def run (recursive : Bool) (cs : SortedSet Clause) : Run :=
  match h : round cs with
  | .error reason => .collapsed reason
  | .ok ds =>
    if hd : recursive = false ∨ ds = cs then .settled cs ds
    else
      have := weight_round_lt h (not_or.mp hd).2
      .absorbed cs ds (run recursive ds)
termination_by weight cs.toList

def Run.result (fallback : Bool) : Run → ClauseSet
  | collapsed _ => .const fallback
  | settled _ after => .clauses after
  | absorbed _ _ rest => rest.result fallback

end UnitPropagation

namespace ClauseSet

def optimize (s : ClauseSet) (fallback recursive : Bool) : ClauseSet :=
  match s with
  | const b => const b
  | clauses cs => (UnitPropagation.run recursive cs).result fallback

end ClauseSet

end Propositional
