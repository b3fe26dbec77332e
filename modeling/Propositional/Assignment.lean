import Propositional.Variable
import Propositional.SortedSet.Lemmas

/-!
# Assignments of truth values

An assignment gives values to finitely many variables. It is kept as the list
of its pairs in increasing order of the variables, so assignments that give
the same answers are equal. The assignments to a set of variables are listed
in binary counting order, the first variable being the most significant digit.
-/

set_option autoImplicit false

namespace Propositional

structure Assignment where
  pairs : List (Variable × Bool)
  sorted : pairs.Pairwise (fun p q => compare p.1 q.1 = .lt)

namespace Assignment

theorem ext_pairs {e d : Assignment} (h : e.pairs = d.pairs) : e = d := by
  cases e
  cases d
  cases h
  rfl

theorem pairs_inj {e d : Assignment} : e.pairs = d.pairs ↔ e = d :=
  ⟨ext_pairs, fun h => h ▸ rfl⟩

instance : DecidableEq Assignment := fun _ _ => decidable_of_iff _ pairs_inj

def empty : Assignment := ⟨[], .nil⟩

instance : EmptyCollection Assignment := ⟨empty⟩

def get? (e : Assignment) (v : Variable) : Option Bool := e.pairs.lookup v

theorem lookup_cons (v w : Variable) (b : Bool) (l : List (Variable × Bool)) :
    List.lookup w ((v, b) :: l) = if v = w then some b else l.lookup w := by
  by_cases h : v = w
  · rw [if_pos h, h, List.lookup_cons_self]
  · rw [if_neg h, List.lookup_cons, beq_false_of_ne (Ne.symm h)]

def setSorted (v : Variable) (b : Bool) : List (Variable × Bool) → List (Variable × Bool)
  | [] => [(v, b)]
  | (w, a) :: rest =>
    match compare v w with
    | .lt => (v, b) :: (w, a) :: rest
    | .eq => (v, b) :: rest
    | .gt => (w, a) :: setSorted v b rest

theorem mem_setSorted {v : Variable} {b : Bool} {p : Variable × Bool}
    {l : List (Variable × Bool)} (h : p ∈ setSorted v b l) : p = (v, b) ∨ p ∈ l := by
  induction l with
  | nil => simpa [setSorted] using h
  | cons q l ih =>
    obtain ⟨w, a⟩ := q
    rw [setSorted] at h
    split at h
    · simpa using h
    · rcases List.mem_cons.mp h with h | h
      · exact .inl h
      · exact .inr (List.mem_cons_of_mem _ h)
    · rcases List.mem_cons.mp h with h | h
      · exact .inr (h ▸ List.mem_cons_self)
      · exact (ih h).imp_right (List.mem_cons_of_mem _)

theorem pairwise_setSorted {v : Variable} {b : Bool} {l : List (Variable × Bool)}
    (hl : l.Pairwise (fun p q => compare p.1 q.1 = .lt)) :
    (setSorted v b l).Pairwise (fun p q => compare p.1 q.1 = .lt) := by
  induction l with
  | nil => simp [setSorted]
  | cons q l ih =>
    obtain ⟨w, a⟩ := q
    obtain ⟨hw, hrest⟩ := List.pairwise_cons.mp hl
    rw [setSorted]
    cases h : compare v w with
    | lt =>
      refine List.Pairwise.cons (fun p hp => ?_) hl
      rcases List.mem_cons.mp hp with rfl | hp
      · exact h
      · exact Std.TransCmp.lt_trans h (hw p hp)
    | eq =>
      have hvw : v = w := Std.compare_eq_iff_eq.mp h
      exact List.Pairwise.cons (fun p hp => hvw ▸ hw p hp) hrest
    | gt =>
      refine List.Pairwise.cons (fun p hp => ?_) (ih hrest)
      rcases mem_setSorted hp with rfl | hp
      · exact Std.OrientedCmp.gt_iff_lt.mp h
      · exact hw p hp

def set (e : Assignment) (v : Variable) (b : Bool) : Assignment :=
  ⟨setSorted v b e.pairs, pairwise_setSorted e.sorted⟩

theorem lookup_setSorted (v w : Variable) (b : Bool) (l : List (Variable × Bool)) :
    (setSorted v b l).lookup w = if v = w then some b else l.lookup w := by
  induction l with
  | nil => exact lookup_cons v w b []
  | cons q l ih =>
    obtain ⟨u, a⟩ := q
    rw [setSorted]
    cases h : compare v u with
    | lt => exact lookup_cons v w b _
    | eq =>
      have hvu : v = u := Std.compare_eq_iff_eq.mp h
      by_cases hw : u = w <;> simp [lookup_cons, hvu, hw]
    | gt =>
      have hvu : u ≠ v := by
        rintro rfl
        simp at h
      by_cases hw : u = w
      · subst hw
        simp [hvu.symm]
      · simp [lookup_cons, hw, ih]

theorem get?_set (e : Assignment) (v w : Variable) (b : Bool) :
    (e.set v b).get? w = if v = w then some b else e.get? w :=
  lookup_setSorted v w b e.pairs

def ofList (l : List (Variable × Bool)) : Assignment :=
  l.foldl (fun e p => e.set p.1 p.2) ∅

def rows : Nat → List (List Bool)
  | 0 => [[]]
  | n + 1 => (rows n).map (false :: ·) ++ (rows n).map (true :: ·)

theorem length_of_mem_rows {n : Nat} {row : List Bool} (h : row ∈ rows n) : row.length = n := by
  induction n generalizing row with
  | zero => simp_all [rows]
  | succ n ih =>
    simp only [rows, List.mem_append, List.mem_map] at h
    rcases h with ⟨r, hr, rfl⟩ | ⟨r, hr, rfl⟩ <;> simp [ih hr]

def allOver (vars : SortedSet Variable) : List Assignment :=
  (rows vars.size).map (fun row => ofList (vars.toList.zip row))

end Assignment

end Propositional
