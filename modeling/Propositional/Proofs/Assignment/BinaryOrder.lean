import Mathlib.Data.List.Nodup
import Propositional.Proofs.Assignment.Enumeration

/-!
# The order of the listed assignments

The assignments to `n` variables are listed as `n`-digit binary numbers are
counted: the one in place `k` gives the variables, in their order, the digits of
`k`, the most significant first. An assignment is determined by its answers, so
every assignment to exactly these variables stands in the list and stands there
once. Any product of the choices between false and true in which the last choice
changes fastest gives the same list; as a product of no choices has no rows, the
one assignment to no variables is then listed apart.
-/

set_option autoImplicit false

namespace Propositional.Assignment

variable {vars : SortedSet Variable} {env : Assignment} {v : Variable} {b : Bool} {n k : Nat}

def digits : Nat → Nat → List Bool
  | 0, _ => []
  | n + 1, k => k.testBit n :: digits n k

theorem getElem?_digits {i : Nat} (k : Nat) (h : i < n) :
    (digits n k)[i]? = some (k.testBit (n - 1 - i)) := by
  induction n generalizing i with
  | zero => exact absurd h (Nat.not_lt_zero i)
  | succ n ih =>
    cases i with
    | zero => rfl
    | succ i =>
      have hplace : n + 1 - 1 - (i + 1) = n - 1 - i := by omega
      rw [digits, List.getElem?_cons_succ, ih (Nat.lt_of_succ_lt_succ h), hplace]

theorem digits_two_pow_add {m : Nat} (h : m ≤ n) (k : Nat) :
    digits m (2 ^ n + k) = digits m k := by
  induction m with
  | zero => rfl
  | succ m ih => rw [digits, digits, ih (Nat.le_of_succ_le h), Nat.testBit_two_pow_add_gt h]

/-- The rows in turn are the digits of the numbers in turn. -/
theorem rows_eq_map_digits (n : Nat) : rows n = (List.range (2 ^ n)).map (digits n) := by
  induction n with
  | zero => rfl
  | succ n ih =>
    have hlow : ∀ k ∈ List.range (2 ^ n), false :: digits n k = digits (n + 1) k := by
      intro k hk
      rw [digits, Nat.testBit_lt_two_pow (List.mem_range.mp hk)]
    have hhigh : ∀ k ∈ List.range (2 ^ n), true :: digits n k = digits (n + 1) (2 ^ n + k) := by
      intro k hk
      rw [digits, digits_two_pow_add (Nat.le_refl n), Nat.testBit_two_pow_add_eq,
        Nat.testBit_lt_two_pow (List.mem_range.mp hk), Bool.not_false]
    calc rows (n + 1)
        = (List.range (2 ^ n)).map (fun k => false :: digits n k) ++
            (List.range (2 ^ n)).map (fun k => true :: digits n k) := by
          rw [rows, ih, List.map_map, List.map_map]
          rfl
      _ = (List.range (2 ^ n)).map (digits (n + 1)) ++
            (List.range (2 ^ n)).map (fun k => digits (n + 1) (2 ^ n + k)) := by
          rw [List.map_congr_left hlow, List.map_congr_left hhigh]
      _ = (List.range (2 ^ (n + 1))).map (digits (n + 1)) := by
          rw [pow_succ, Nat.mul_two, List.range_add, List.map_append, List.map_map]
          rfl

theorem digits_mem_rows (h : k < 2 ^ n) : digits n k ∈ rows n := by
  rw [rows_eq_map_digits]
  exact List.mem_map_of_mem (List.mem_range.mpr h)

theorem getElem?_allOver (h : k < 2 ^ vars.size) :
    (allOver vars)[k]? = some (ofList (vars.toList.zip (digits vars.size k))) := by
  rw [allOver, rows_eq_map_digits, List.getElem?_map, List.getElem?_map, List.getElem?_range h]
  rfl

theorem lt_of_getElem?_allOver (h : (allOver vars)[k]? = some env) : k < 2 ^ vars.size := by
  rw [← length_allOver]
  exact (List.getElem?_eq_some_iff.mp h).1

theorem get?_of_getElem?_allOver {i : Nat} (h : (allOver vars)[k]? = some env)
    (hv : vars.toList[i]? = some v) : env.get? v = some (k.testBit (vars.size - 1 - i)) := by
  have hk := lt_of_getElem?_allOver h
  have hi : i < vars.size := (List.getElem?_eq_some_iff.mp hv).1
  rw [getElem?_allOver hk, Option.some.injEq] at h
  rw [← h, get?_ofList_zip_row (digits_mem_rows hk)]
  exact List.mem_of_getElem? (List.getElem?_zip_eq_some.mpr ⟨hv, getElem?_digits k hi⟩)

theorem nodup_keys (e : Assignment) : (e.pairs.map Prod.fst).Nodup :=
  List.pairwise_map.mpr (e.sorted.imp fun h heq => by simp [heq] at h)

theorem mem_pairs_iff {e : Assignment} : (v, b) ∈ e.pairs ↔ e.get? v = some b :=
  (lookup_eq_some_iff e.nodup_keys).symm

/-- Assignments that give the same answers are equal. -/
theorem ext_get? {e d : Assignment} (h : ∀ v, e.get? v = d.get? v) : e = d := by
  have hperm : e.pairs.Perm d.pairs := by
    rw [List.perm_ext_iff_of_nodup (List.Nodup.of_map _ e.nodup_keys)
      (List.Nodup.of_map _ d.nodup_keys)]
    rintro ⟨v, b⟩
    rw [mem_pairs_iff, mem_pairs_iff, h v]
  exact ext_pairs (@List.Perm.eq_of_pairwise _ (fun p q => compare p.1 q.1 = .lt) _ _
    (fun _ _ _ _ hpq hqp => absurd hqp (Std.OrientedCmp.not_lt_of_lt hpq))
    e.sorted d.sorted hperm)

theorem Over.eq {e d : Assignment} (he : e.Over vars) (hd : d.Over vars)
    (h : ∀ v ∈ vars, e.get? v = d.get? v) : e = d := by
  apply ext_get?
  intro v
  by_cases hv : v ∈ vars
  · exact h v hv
  · have hnone {c : Assignment} (hc : c.Over vars) : c.get? v = none :=
      Option.not_isSome_iff_eq_none.mp (mt (hc v).mp hv)
    rw [hnone he, hnone hd]

theorem countP_allOver_value (vars : SortedSet Variable) (value : Variable → Bool) :
    (allOver vars).countP (fun env => env.Keeps vars fun v => some (value v)) = 1 := by
  have hfree : (vars.filter fun v => (some (value v)).isNone).size = 0 := by
    simp [SortedSet.size, SortedSet.filter]
  rw [countP_allOver_keeps, hfree, pow_zero]

theorem Over.keeps_value (h : env.Over vars) : env.Keeps vars fun v => some (env.value v) := by
  rintro v hv b hb
  obtain rfl : env.value v = b := Option.some.inj hb
  exact get?_eq_some_iff.mpr ⟨h.covers v hv, rfl⟩

theorem mem_allOver_iff : env ∈ allOver vars ↔ env.Over vars := by
  constructor
  · exact over_of_mem_allOver
  · intro h
    have hpos : 0 < (allOver vars).countP fun d => d.Keeps vars fun v => some (env.value v) := by
      rw [countP_allOver_value]
      exact Nat.one_pos
    obtain ⟨d, hd, hkeeps⟩ := List.countP_pos_iff.mp hpos
    have heq : d = env := (over_of_mem_allOver hd).eq h fun v hv =>
      (of_decide_eq_true hkeeps v hv _ rfl).trans (h.keeps_value v hv _ rfl).symm
    exact heq ▸ hd

theorem nodup_allOver (vars : SortedSet Variable) : (allOver vars).Nodup := by
  rw [List.nodup_iff_count_le_one]
  intro env
  rw [← countP_allOver_value vars env.value, List.count_eq_countP]
  apply List.countP_mono_left
  intro d hd heq
  obtain rfl : d = env := beq_iff_eq.mp heq
  exact decide_eq_true (over_of_mem_allOver hd).keeps_value

def extend (value : {v // v ∈ vars} → Bool) (v : Variable) : Bool :=
  if h : v ∈ vars then value ⟨v, h⟩ else false

theorem get?_tabulate_extend (value : {v // v ∈ vars} → Bool) (v : {v // v ∈ vars}) :
    (tabulate vars (extend value)).get? v.1 = some (value v) := by
  rw [get?_tabulate, if_pos v.2, extend, dif_pos v.2]

/-- Every function on the variables is given in one place. -/
theorem existsUnique_place (value : {v // v ∈ vars} → Bool) :
    ∃! k : Nat, ∃ env : Assignment, (allOver vars)[k]? = some env ∧
      ∀ v, env.get? v.1 = some (value v) := by
  have hover := tabulate_over vars (extend value)
  obtain ⟨k, hk⟩ := List.mem_iff_getElem?.mp (mem_allOver_iff.mpr hover)
  refine ⟨k, ⟨_, hk, get?_tabulate_extend value⟩, ?_⟩
  rintro j ⟨env, hj, henv⟩
  have heq : env = tabulate vars (extend value) :=
    (over_of_mem_allOver (List.mem_of_getElem? hj)).eq hover fun v hv =>
      (henv ⟨v, hv⟩).trans (get?_tabulate_extend value ⟨v, hv⟩).symm
  have hlt : j < (allOver vars).length := (List.getElem?_eq_some_iff.mp hj).1
  apply (List.getElem?_inj hlt (nodup_allOver vars)).mp
  rw [hj, hk, heq]

/-- The rows take one entry from each list, and the entry from the last list
changes fastest. From no lists there are no rows. -/
structure IsProduct (product : List (List Bool) → List (List Bool)) : Prop where
  nil : product [] = []
  singleton (choices : List Bool) : product [choices] = choices.map ([·])
  cons (choices : List Bool) (rest : List (List Bool)) : rest ≠ [] →
    product (choices :: rest) = choices.flatMap fun b => (product rest).map (b :: ·)

def allThrough (product : List (List Bool) → List (List Bool)) (vars : SortedSet Variable) :
    List Assignment :=
  (if vars.isEmpty then [[]] else product (vars.toList.map fun _ => [false, true])).map
    fun row => ofList (vars.toList.zip row)

section Product

variable {product : List (List Bool) → List (List Bool)}

theorem IsProduct.eq_rows (h : IsProduct product) (n : Nat) :
    product (List.replicate (n + 1) [false, true]) = rows (n + 1) := by
  induction n with
  | zero => exact h.singleton _
  | succ n ih =>
    have hne : List.replicate (n + 1) [false, true] ≠ [] := by simp
    rw [List.replicate_succ, h.cons _ _ hne, ih, List.flatMap_cons, List.flatMap_cons,
      List.flatMap_nil, List.append_nil]
    rfl

theorem IsProduct.allThrough_eq (h : IsProduct product) (vars : SortedSet Variable) :
    allThrough product vars = allOver vars := by
  rw [allThrough, allOver]
  congr 1
  rw [SortedSet.isEmpty, SortedSet.size, List.map_const']
  cases vars.toList with
  | nil => rfl
  | cons v vs => exact h.eq_rows vs.length

end Product

def choiceRows : List (List Bool) → List (List Bool)
  | [] => []
  | [choices] => choices.map ([·])
  | choices :: rest => choices.flatMap fun b => (choiceRows rest).map (b :: ·)

theorem isProduct_choiceRows : IsProduct choiceRows where
  nil := rfl
  singleton _ := rfl
  cons _ rest h := by
    cases rest with
    | nil => exact absurd rfl h
    | cons _ _ => rfl

/-- The assignments to `n` variables are the `2 ^ n` that give values to just
these variables, without repetition, in the order of binary counting: in place
`k` the variable in place `i` has the digit of `k` with the weight
`2 ^ (n - 1 - i)`. So every function on the variables is given in one place. The
list is that of any product in which the last choice changes fastest. -/
theorem allOver_counts_in_binary (vars : SortedSet Variable) :
    (∀ product, IsProduct product → allThrough product vars = allOver vars) ∧
    (allOver vars).length = 2 ^ vars.size ∧
    (∀ env, env ∈ allOver vars ↔ env.Over vars) ∧
    (allOver vars).Nodup ∧
    (∀ (k : Nat) (env : Assignment), (allOver vars)[k]? = some env →
      ∀ (i : Nat) (v : Variable), vars.toList[i]? = some v →
        env.get? v = some (k.testBit (vars.size - 1 - i))) ∧
    ∀ value : {v // v ∈ vars} → Bool, ∃! k : Nat, ∃ env : Assignment,
      (allOver vars)[k]? = some env ∧ ∀ v, env.get? v.1 = some (value v) := by
  refine ⟨?_, length_allOver vars, fun env => mem_allOver_iff, nodup_allOver vars, ?_, ?_⟩
  · exact fun product h => h.allThrough_eq vars
  · exact fun k env henv i v hv => get?_of_getElem?_allOver henv hv
  · exact existsUnique_place

def pair : SortedSet Variable := .ofList [.q, .p]

theorem allOver_counts_in_binary_pair :
    IsProduct choiceRows ∧ allThrough choiceRows pair = allOver pair ∧
      (allOver pair)[2]? = some (.ofList [(.q, false), (.p, true)]) ∧
      pair.toList[0]? = some .p ∧ pair.toList[1]? = some .q ∧
      (ofList [(.q, false), (.p, true)]).get? .p = some (Nat.testBit 2 1) ∧
      (ofList [(.q, false), (.p, true)]).get? .q = some (Nat.testBit 2 0) := by
  obtain ⟨hproduct, -, -, -, hdigit, -⟩ := allOver_counts_in_binary pair
  have hplace : (allOver pair)[2]? = some (.ofList [(.q, false), (.p, true)]) := by decide
  have hp : pair.toList[0]? = some .p := by decide
  have hq : pair.toList[1]? = some .q := by decide
  exact ⟨isProduct_choiceRows, hproduct choiceRows isProduct_choiceRows, hplace, hp, hq,
    hdigit 2 _ hplace 0 .p hp, hdigit 2 _ hplace 1 .q hq⟩

/-- No variables are given their one assignment although no choices have no rows. -/
example : choiceRows [] = [] ∧ allThrough choiceRows ∅ = [∅] := by decide

end Propositional.Assignment
