import Mathlib.Data.List.Nodup
import Propositional.Proofs.SortedSet.Size
import Propositional.Proofs.UnitPropagation.Soundness

/-!
# Forced literals grow from round to round

A round keeps the units of a set, and a round that finds no new ones is followed
by one that changes nothing. So as long as the rounds change the set its units
get more, and while they do not clash they are of different variables: there are
no more rounds that change a set than it has variables.
-/

set_option autoImplicit false

namespace Propositional

theorem UnitPropagation.Consistent.eq_of_var_eq {c : Clause} {k l : Literal} (h : Consistent c)
    (hk : k ∈ c) (hl : l ∈ c) (hvar : k.var = l.var) : k = l := by
  rcases Literal.eq_or_eq_negate hvar with rfl | rfl
  · rfl
  · exact absurd hk (h l hl)

open UnitPropagation (Consistent)

namespace Clause

variable {c : Clause} {vars : SortedSet Variable}

theorem nodup_map_var (hc : Consistent c) : (c.toList.map Literal.var).Nodup :=
  c.nodup.map_on fun _ hk _ hl hvar => hc.eq_of_var_eq hk hl hvar

theorem size_le (hc : Consistent c) (hvars : ∀ l ∈ c, l.var ∈ vars) : c.size ≤ vars.size := by
  have hsub : ∀ v ∈ c.toList.map Literal.var, v ∈ vars := by
    intro v hv
    obtain ⟨l, hl, rfl⟩ := List.mem_map.mp hv
    exact hvars l hl
  calc c.size = (c.toList.map Literal.var).length := (List.length_map _).symm
    _ ≤ vars.size := SortedSet.length_le_size (nodup_map_var hc) hsub

end Clause

namespace UnitPropagation

variable {cs ds es : SortedSet Clause}

theorem units_subset_of_round (h : round cs = .ok ds) : units cs ⊆ units ds := by
  intro l hl
  rw [mem_units, eq_residue_of_round_eq_ok h]
  exact unit_mem_residue hl

theorem eq_of_units_subset (h : round cs = .ok ds) (hnext : round ds = .ok es)
    (hsub : units ds ⊆ units cs) : es = ds := by
  have hunits : units ds = units cs :=
    SortedSet.ext fun l => ⟨hsub l, units_subset_of_round h l⟩
  have hds : ds = residue (units cs) cs := eq_residue_of_round_eq_ok h
  calc es = residue (units ds) ds := eq_residue_of_round_eq_ok hnext
    _ = residue (units cs) (residue (units cs) cs) := by rw [hunits, ← hds]
    _ = residue (units cs) cs := residue_residue (fun _ hl => hl) (round_eq_ok_iff.mp h).2.1
    _ = ds := hds.symm

theorem size_units_lt (h : round cs = .ok ds) (hnext : round ds = .ok es) (hne : es ≠ ds) :
    (units cs).size < (units ds).size := by
  obtain ⟨l, hl, hnew⟩ : ∃ l ∈ units ds, l ∉ units cs := by
    apply Classical.byContradiction
    intro hnone
    refine hne (eq_of_units_subset h hnext fun l hl => ?_)
    exact Classical.not_not.mp fun hnew => hnone ⟨l, hl, hnew⟩
  exact SortedSet.size_lt_of_subset (units_subset_of_round h) hl hnew

/-- A round that changes the set finds a unit. -/
theorem size_units_pos (h : round cs = .ok ds) (hne : ds ≠ cs) : 0 < (units cs).size := by
  have hunits : units cs ≠ ∅ := by
    intro he
    exact hne (by rw [eq_residue_of_round_eq_ok h, he, residue_empty])
  obtain ⟨l, hl⟩ := SortedSet.exists_mem_of_ne_empty hunits
  exact List.length_pos_of_mem hl

theorem size_units_le_of_round (h : round cs = .ok ds) :
    (units cs).size ≤ (ClauseSet.clauses cs).vars.size :=
  Clause.size_le (round_eq_ok_iff.mp h).2.1 fun _ => var_mem_of_mem_units

theorem size_le_of_round (h : round cs = .ok ds) : ds.size ≤ cs.size := by
  rw [eq_residue_of_round_eq_ok h, ← filterMap_reduce_eq_residue]
  exact SortedSet.size_filterMap_le _ cs

/-- The set that the round of the given number begins with, if no round before
it collapses. -/
def stage (cs : SortedSet Clause) : Nat → Option (SortedSet Clause)
  | 0 => some cs
  | k + 1 => (stage cs k).bind fun ds => (round ds).toOption

def Changes (cs : SortedSet Clause) (k : Nat) : Prop :=
  ∃ ds es, stage cs k = some ds ∧ round ds = .ok es ∧ es ≠ ds

theorem stage_succ_eq_some_iff {k : Nat} :
    stage cs (k + 1) = some es ↔ ∃ ds, stage cs k = some ds ∧ round ds = .ok es := by
  rw [stage, Option.bind_eq_some_iff]
  refine exists_congr fun ds => and_congr_right fun _ => ?_
  cases round ds <;> simp [Except.toOption]

theorem stage_of_round (h : round cs = .ok ds) (k : Nat) : stage cs (k + 1) = stage ds k := by
  induction k with
  | zero => exact stage_succ_eq_some_iff.mpr ⟨cs, rfl, h⟩
  | succ k ih => rw [stage, ih, stage]

theorem changes_succ (h : round cs = .ok ds) {k : Nat} : Changes cs (k + 1) ↔ Changes ds k := by
  rw [Changes, Changes, stage_of_round h]

theorem vars_stage_subset {k : Nat} (h : stage cs k = some ds) :
    (ClauseSet.clauses ds).vars ⊆ (ClauseSet.clauses cs).vars := by
  induction k generalizing ds with
  | zero =>
    cases h
    exact fun v hv => hv
  | succ k ih =>
    obtain ⟨es, hes, hround⟩ := stage_succ_eq_some_iff.mp h
    exact fun v hv => ih hes v (vars_subset_of_round_eq_ok hround v hv)

/-- Every round that changes the set adds a unit. -/
theorem lt_size_units_stage {k : Nat} (h : stage cs k = some ds) (hch : ∀ j ≤ k, Changes cs j) :
    k < (units ds).size := by
  obtain ⟨ds', es, hds, hround, hne⟩ := hch k (Nat.le_refl k)
  obtain rfl : ds = ds' := Option.some.inj (h.symm.trans hds)
  induction k generalizing ds es with
  | zero => exact size_units_pos hround hne
  | succ k ih =>
    obtain ⟨bs, hbs, hbefore⟩ := stage_succ_eq_some_iff.mp h
    have hlt : k < (units bs).size := by
      apply ih hbs (fun j hj => hch j (Nat.le_succ_of_le hj)) ds hbs hbefore
      obtain ⟨bs', ds', hbs', hbefore', hne'⟩ := hch k (Nat.le_succ k)
      obtain rfl : bs = bs' := Option.some.inj (hbs.symm.trans hbs')
      obtain rfl : ds = ds' := Except.ok.inj (hbefore.symm.trans hbefore')
      exact hne'
    have := size_units_lt hbefore hround hne
    omega

/-- The rounds that change a set one after another are at most as many as its
variables. -/
theorem le_size_vars_of_changes {n : Nat} (hch : ∀ k < n, Changes cs k) :
    n ≤ (ClauseSet.clauses cs).vars.size := by
  cases n with
  | zero => exact Nat.zero_le _
  | succ k =>
    obtain ⟨ds, es, hds, hround, -⟩ := hch k (Nat.lt_succ_self k)
    calc k + 1 ≤ (units ds).size := lt_size_units_stage hds fun j hj => hch j (Nat.lt_succ_of_le hj)
      _ ≤ (ClauseSet.clauses ds).vars.size := size_units_le_of_round hround
      _ ≤ (ClauseSet.clauses cs).vars.size := SortedSet.size_le_of_subset (vars_stage_subset hds)

end UnitPropagation

end Propositional
