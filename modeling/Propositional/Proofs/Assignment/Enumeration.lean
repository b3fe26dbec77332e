import Mathlib.Algebra.Ring.Nat
import Propositional.Proofs.Formula.Valuation

/-!
# Counting the listed assignments

The assignments to a set of `n` variables are listed row by row, `2 ^ n` of
them, and each gives a value to exactly these variables. Fixing the values of
some variables in advance halves the list once for each of them: of the two
halves that the first variable makes, a fixed value keeps one, and both are
alike in what they have for the other variables.
-/

set_option autoImplicit false

namespace Propositional.Assignment

variable {v : Variable} {b : Bool}

theorem length_rows (n : Nat) : (rows n).length = 2 ^ n := by
  induction n with
  | zero => rfl
  | succ n ih =>
    rw [rows, List.length_append, List.length_map, List.length_map, ih, pow_succ]
    omega

theorem length_allOver (vars : SortedSet Variable) : (allOver vars).length = 2 ^ vars.size := by
  rw [allOver, List.length_map, length_rows]

theorem lookup_eq_none_iff {l : List (Variable × Bool)} :
    l.lookup v = none ↔ v ∉ l.map Prod.fst := by
  rw [List.lookup_eq_none_iff, List.mem_map]
  simp only [bne_iff_ne, not_exists, not_and]
  exact forall₂_congr fun p _ => ne_comm

theorem lookup_eq_some_iff {l : List (Variable × Bool)} (hl : (l.map Prod.fst).Nodup) :
    l.lookup v = some b ↔ (v, b) ∈ l := by
  induction l with
  | nil => simp
  | cons p l ih =>
    obtain ⟨w, a⟩ := p
    obtain ⟨hw, hrest⟩ := List.nodup_cons.mp hl
    by_cases h : w = v
    · subst h
      have hnot : (w, b) ∉ l := fun hmem => hw (List.mem_map.mpr ⟨(w, b), hmem, rfl⟩)
      simp [hnot, eq_comm]
    · simp [lookup_cons, h, ih hrest, Ne.symm h]

theorem get?_foldl_set_of_nodup {l : List (Variable × Bool)} (hl : (l.map Prod.fst).Nodup)
    (e : Assignment) :
    (l.foldl (fun e p => e.set p.1 p.2) e).get? v = (l.lookup v).or (e.get? v) := by
  induction l generalizing e with
  | nil => rfl
  | cons p l ih =>
    obtain ⟨w, a⟩ := p
    obtain ⟨hw, hrest⟩ := List.nodup_cons.mp hl
    rw [List.foldl_cons, ih hrest, get?_set, lookup_cons]
    by_cases h : w = v
    · subst h
      have hnone : l.lookup w = none := lookup_eq_none_iff.mpr hw
      simp [hnone]
    · simp [h]

theorem get?_ofList {l : List (Variable × Bool)} (hl : (l.map Prod.fst).Nodup) :
    (ofList l).get? v = l.lookup v := by
  rw [ofList, get?_foldl_set_of_nodup hl]
  exact Option.or_none

section Row

variable {vars : SortedSet Variable} {row : List Bool} (h : row ∈ rows vars.size)

include h

theorem map_fst_zip_row : (vars.toList.zip row).map Prod.fst = vars.toList :=
  List.map_fst_zip (Nat.le_of_eq (length_of_mem_rows h).symm)

theorem get?_ofList_zip_row : (ofList (vars.toList.zip row)).get? v = some b ↔
    (v, b) ∈ vars.toList.zip row := by
  have hnodup : ((vars.toList.zip row).map Prod.fst).Nodup := by
    rw [map_fst_zip_row h]
    exact vars.nodup
  rw [get?_ofList hnodup, lookup_eq_some_iff hnodup]

theorem over_ofList_zip_row : (ofList (vars.toList.zip row)).Over vars := by
  intro v
  have hkeys : v ∈ (vars.toList.zip row).map Prod.fst ↔ v ∈ vars := by
    rw [map_fst_zip_row h, SortedSet.mem_def]
  rw [← hkeys, Option.isSome_iff_exists, List.mem_map]
  constructor
  · rintro ⟨b, hb⟩
    exact ⟨(v, b), (get?_ofList_zip_row h).mp hb, rfl⟩
  · rintro ⟨⟨w, b⟩, hb, rfl⟩
    exact ⟨b, (get?_ofList_zip_row h).mpr hb⟩

end Row

theorem over_of_mem_allOver {vars : SortedSet Variable} {env : Assignment}
    (h : env ∈ allOver vars) : env.Over vars := by
  obtain ⟨row, hrow, rfl⟩ := List.mem_map.mp h
  exact over_ofList_zip_row hrow

def Keeps (env : Assignment) (vars : SortedSet Variable) (fixed : Variable → Option Bool) : Prop :=
  ∀ v ∈ vars, ∀ b ∈ fixed v, env.get? v = some b

instance (env : Assignment) (vars : SortedSet Variable) (fixed : Variable → Option Bool) :
    Decidable (env.Keeps vars fixed) :=
  inferInstanceAs (Decidable (∀ v ∈ vars, ∀ b ∈ fixed v, env.get? v = some b))

theorem countP_rows (fixed : Variable → Option Bool) (vs : List Variable) :
    (rows vs.length).countP (fun row => (vs.zip row).all fun p => (fixed p.1).all (· == p.2)) =
      2 ^ vs.countP fun v => (fixed v).isNone := by
  induction vs with
  | nil => rfl
  | cons v vs ih =>
    rw [List.length_cons, rows, List.countP_append, List.countP_map, List.countP_map,
      List.countP_cons]
    cases h : fixed v with
    | none =>
      simp [Function.comp_def, h, ih, pow_succ]
      omega
    | some b => cases b <;> simp [Function.comp_def, h, ih]

theorem keeps_ofList_zip_row_iff {vars : SortedSet Variable} {row : List Bool}
    (h : row ∈ rows vars.size) (fixed : Variable → Option Bool) :
    (ofList (vars.toList.zip row)).Keeps vars fixed ↔
      ∀ p ∈ vars.toList.zip row, (fixed p.1).all (· == p.2) = true := by
  constructor
  · rintro hkeeps ⟨v, a⟩ hp
    have hv : v ∈ vars := (List.of_mem_zip hp).1
    apply (Option.all_eq_true _ _).mpr
    intro b hb
    have hget := (get?_ofList_zip_row h).mpr hp
    rw [hkeeps v hv b hb, Option.some.injEq] at hget
    exact beq_iff_eq.mpr hget
  · intro hall v hv b hb
    obtain ⟨a, ha⟩ := Option.isSome_iff_exists.mp ((over_ofList_zip_row h v).mpr hv)
    have hfixed := (Option.all_eq_true _ _).mp (hall (v, a) ((get?_ofList_zip_row h).mp ha)) b hb
    rw [ha, beq_iff_eq.mp hfixed]

/-- Each variable without a fixed value doubles the number of assignments. -/
theorem countP_allOver_keeps (vars : SortedSet Variable) (fixed : Variable → Option Bool) :
    (allOver vars).countP (fun env => env.Keeps vars fixed) =
      2 ^ (vars.filter fun v => (fixed v).isNone).size := by
  have hfree : (vars.filter fun v => (fixed v).isNone).size =
      vars.toList.countP fun v => (fixed v).isNone := List.countP_eq_length_filter.symm
  rw [allOver, List.countP_map, hfree, ← countP_rows]
  apply List.countP_congr
  intro row hrow
  rw [Function.comp_apply, decide_eq_true_eq, List.all_eq_true]
  exact keeps_ofList_zip_row_iff hrow fixed

end Propositional.Assignment
