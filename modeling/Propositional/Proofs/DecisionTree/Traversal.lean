import Mathlib.Data.List.Chain
import Mathlib.Data.List.Nodup
import Propositional.Proofs.DecisionTree.Depth

/-!
# Listing the tests of a decision tree with their depths

The tests of a tree are listed with a node before its branches, and one branch
before the other. The depths tell which entries lie on the way to an entry: its
parent is the nearest one before it that is one less deep, for the entries
between them belong to a branch of that parent and are deeper than it. So a tree
that tests no variable twice on a way repeats none among an entry and its
ancestors. The reading decides which branch comes first but not which entries
there are.
-/

set_option autoImplicit false

namespace Propositional

namespace DecisionTree

/-- The variables of the ancestors of an entry, nearest first: its parent is the
nearest earlier entry that is one less deep. The earlier entries are given with
the latest one first. -/
def ancestors (depth : Nat) : List (Nat × Variable) → List Variable
  | [] => []
  | (d, v) :: earlier => if d + 1 = depth then v :: ancestors d earlier else ancestors depth earlier

variable {k d : Nat} {v w : Variable} {ps qs earlier later : List (Nat × Variable)}

theorem ancestors_cons_parent (d : Nat) (v : Variable) (earlier : List (Nat × Variable)) :
    ancestors (d + 1) ((d, v) :: earlier) = v :: ancestors d earlier := by
  rw [ancestors, if_pos rfl]

/-- Entries that are as deep are no ancestors. -/
theorem ancestors_append (h : ∀ p ∈ later, k ≤ p.1) :
    ancestors k (later ++ earlier) = ancestors k earlier := by
  induction later with
  | nil => rfl
  | cons p later ih =>
    have hp : k ≤ p.1 := h p (by simp)
    have hne : p.1 + 1 ≠ k := by omega
    rw [List.cons_append, ancestors, if_neg hne]
    exact ih fun q hq => h q (by simp [hq])

/-- An entry of two lists one after the other is in the first or in the second. -/
theorem append_eq_append_cons {α : Type} {xs ys before after : List α} {x : α}
    (h : xs ++ ys = before ++ x :: after) :
    (∃ rest, xs = before ++ x :: rest) ∨ ∃ mid, before = xs ++ mid ∧ ys = mid ++ x :: after := by
  rcases List.append_eq_append_iff.mp h with ⟨mid, hbefore, hys⟩ | ⟨rest, hxs, hafter⟩
  · exact .inr ⟨mid, hbefore, hys⟩
  · cases rest with
    | nil => exact .inr ⟨[], by simpa using hxs.symm, by simpa using hafter.symm⟩
    | cons y rest =>
      obtain ⟨rfl, -⟩ := List.cons.inj hafter
      exact .inl ⟨rest, hxs⟩

structure Way (k : Nat) (vars : SortedSet Variable) (d : Nat) (v : Variable)
    (path : List Variable) : Prop where
  nodup : (v :: path).Nodup
  mem_vars : ∀ w ∈ v :: path, w ∈ vars
  length_eq : k + path.length = d

theorem Way.below {vars all : SortedSet Variable} {path : List Variable}
    (h : Way (k + 1) vars d w path) (hsub : vars ⊆ all) (hv : v ∈ all) (hnew : v ∉ vars) :
    Way k all d w (path ++ [v]) where
  nodup := by
    rw [← List.cons_append, List.nodup_append]
    refine ⟨h.nodup, List.nodup_singleton v, fun u hu u' hu' huu' => ?_⟩
    rw [List.mem_singleton] at hu'
    exact hnew (hu' ▸ huu' ▸ h.mem_vars u hu)
  mem_vars u hu := by
    rw [← List.cons_append, List.mem_append, List.mem_singleton] at hu
    rcases hu with hu | rfl
    · exact hsub u (h.mem_vars u hu)
    · exact hv
  length_eq := by
    have := h.length_eq
    rw [List.length_append, List.length_singleton]
    omega

structure Listing (k : Nat) (vars : SortedSet Variable) (ps : List (Nat × Variable)) : Prop where
  head_depth : ∀ p ∈ ps.head?, p.1 = k
  tail_depth : ∀ p ∈ ps.tail, k + 1 ≤ p.1
  steps : ps.IsChain fun p q => q.1 ≤ p.1 + 1
  ways : ∀ before d v after, ps = before ++ (d, v) :: after → ∃ path, Way k vars d v path ∧
    ∀ earlier, ancestors d (before.reverse ++ earlier) = path ++ ancestors k earlier

theorem Listing.le_depth {vars : SortedSet Variable} (h : Listing k vars ps) :
    ∀ p ∈ ps, k ≤ p.1 := by
  intro p hp
  cases ps with
  | nil => cases hp
  | cons q ps =>
    rcases List.mem_cons.mp hp with rfl | hp
    · exact Nat.le_of_eq (h.head_depth p rfl).symm
    · exact Nat.le_of_succ_le (h.tail_depth p hp)

theorem Listing.nil (k : Nat) (vars : SortedSet Variable) : Listing k vars [] where
  head_depth p hp := by cases hp
  tail_depth p hp := absurd hp List.not_mem_nil
  steps := .nil
  ways before d v after h := by simp at h

/-- The second list may begin at any depth of the first or one deeper. -/
theorem isChain_append_of_depth (hps : ps.IsChain fun p q => q.1 ≤ p.1 + 1)
    (hqs : qs.IsChain fun p q => q.1 ≤ p.1 + 1) (hle : ∀ p ∈ ps, k ≤ p.1)
    (hhead : ∀ q ∈ qs.head?, q.1 ≤ k + 1) : (ps ++ qs).IsChain fun p q => q.1 ≤ p.1 + 1 := by
  refine hps.append hqs fun p hp q hq => ?_
  have := hle p (List.mem_of_mem_getLast? hp)
  have := hhead q hq
  omega

/-- The way to an entry of a branch goes on to the node above it, whatever deeper
entries stand between the branch and the node. -/
theorem Listing.exists_way_below {vars all : SortedSet Variable}
    {before after : List (Nat × Variable)} (h : Listing (k + 1) vars ps)
    (hsplit : ps = before ++ (d, w) :: after) (hsub : vars ⊆ all) (hv : v ∈ all) (hnew : v ∉ vars)
    (gap : List (Nat × Variable)) (hgap : ∀ p ∈ gap, k + 1 ≤ p.1) :
    ∃ path, Way k all d w path ∧ ∀ earlier,
      ancestors d (before.reverse ++ (gap ++ (k, v) :: earlier)) = path ++ ancestors k earlier := by
  obtain ⟨path, hway, hpath⟩ := h.ways before d w after hsplit
  refine ⟨path ++ [v], hway.below hsub hv hnew, fun earlier => ?_⟩
  rw [hpath, ancestors_append hgap, ancestors_cons_parent, List.append_assoc,
    List.singleton_append]

/-- A node above the listings of its two branches. -/
theorem Listing.node {left right all : SortedSet Variable} (hps : Listing (k + 1) left ps)
    (hqs : Listing (k + 1) right qs) (hleft : left ⊆ all) (hright : right ⊆ all) (hv : v ∈ all)
    (hvl : v ∉ left) (hvr : v ∉ right) : Listing k all ((k, v) :: (ps ++ qs)) where
  head_depth p hp := by
    cases hp
    rfl
  tail_depth p hp := by
    rcases List.mem_append.mp hp with hp | hp
    · exact hps.le_depth p hp
    · exact hqs.le_depth p hp
  steps := by
    have hpair : (ps ++ qs).IsChain fun p q => q.1 ≤ p.1 + 1 :=
      isChain_append_of_depth hps.steps hqs.steps hps.le_depth fun q hq =>
        Nat.le_succ_of_le (Nat.le_of_eq (hqs.head_depth q hq))
    refine hpair.cons fun q hq => ?_
    cases ps with
    | nil => exact Nat.le_of_eq (hqs.head_depth q hq)
    | cons p ps => exact Nat.le_of_eq (hps.head_depth q hq)
  ways before d w after h := by
    cases before with
    | nil =>
      obtain ⟨⟨rfl, rfl⟩, -⟩ : (k = d ∧ v = w) ∧ ps ++ qs = after := by simpa using h
      exact ⟨[], ⟨List.nodup_singleton v, by simpa using hv, rfl⟩, fun _ => rfl⟩
    | cons first before =>
      obtain ⟨rfl, hrest⟩ := List.cons.inj h
      rcases append_eq_append_cons hrest with ⟨rest, hsplit⟩ | ⟨mid, rfl, hsplit⟩
      · obtain ⟨path, hway, hpath⟩ := hps.exists_way_below hsplit hleft hv hvl [] (by simp)
        exact ⟨path, hway, fun earlier => by simpa using hpath earlier⟩
      · obtain ⟨path, hway, hpath⟩ := hqs.exists_way_below hsplit hright hv hvr ps.reverse
          fun p hp => hps.le_depth p (List.mem_reverse.mp hp)
        exact ⟨path, hway, fun earlier => by simpa using hpath earlier⟩

theorem Listing.depth_lt {vars : SortedSet Variable} (h : Listing 0 vars ps) :
    ∀ p ∈ ps, p.1 < vars.size := by
  rintro ⟨d, v⟩ hp
  obtain ⟨before, after, hsplit⟩ := List.append_of_mem hp
  obtain ⟨path, hway, -⟩ := h.ways before d v after hsplit
  have hle := SortedSet.length_le_size hway.nodup hway.mem_vars
  have := hway.length_eq
  rw [List.length_cons] at hle
  omega

/-- The ancestors of an entry and the entry itself have different variables,
and there is one ancestor at every smaller depth. -/
theorem Listing.ancestors_of_root {vars : SortedSet Variable} (h : Listing 0 vars ps)
    {before after : List (Nat × Variable)} (hsplit : ps = before ++ (d, v) :: after) :
    (v :: ancestors d before.reverse).Nodup ∧ (ancestors d before.reverse).length = d := by
  obtain ⟨path, hway, hpath⟩ := h.ways before d v after hsplit
  have heq : ancestors d before.reverse = path := by
    simpa [ancestors] using hpath []
  have := hway.length_eq
  rw [heq]
  exact ⟨hway.nodup, by omega⟩

theorem listing_pivots {t : DecisionTree} (h : t.ReadOnce) (r : Reading) (k : Nat) :
    Listing k t.vars (t.pivots r k) := by
  induction t generalizing k with
  | leaf b => exact .nil k _
  | branch v low high ihl ihh =>
    obtain ⟨hvl, hvh, hlow, hhigh⟩ := h
    have hv := root_mem_vars v low high
    have hl := vars_low_subset v low high
    have hh := vars_high_subset v low high
    rw [pivots]
    split
    · exact (ihh hhigh (k + 1)).node (ihl hlow (k + 1)) hh hl hv hvh hvl
    · exact (ihl hlow (k + 1)).node (ihh hhigh (k + 1)) hl hh hv hvl hvh

theorem length_pivots_lt (t : DecisionTree) (r : Reading) (k : Nat) :
    (t.pivots r k).length < 2 ^ t.depth := by
  induction t generalizing k with
  | leaf b => exact Nat.zero_lt_one
  | branch v low high ihl ihh =>
    have hlow : 2 ^ low.depth ≤ 2 ^ max low.depth high.depth :=
      Nat.pow_le_pow_right (by decide) (Nat.le_max_left _ _)
    have hhigh : 2 ^ high.depth ≤ 2 ^ max low.depth high.depth :=
      Nat.pow_le_pow_right (by decide) (Nat.le_max_right _ _)
    have := ihl (k + 1)
    have := ihh (k + 1)
    rw [pivots, depth, pow_succ, List.length_cons]
    split <;> rw [List.length_append] <;> omega

theorem perm_pivots (t : DecisionTree) (r s : Reading) (k : Nat) :
    (t.pivots r k).Perm (t.pivots s k) := by
  induction t generalizing k with
  | leaf b => exact .nil
  | branch v low high ihl ihh =>
    have hstraight := (ihh (k + 1)).append (ihl (k + 1))
    have hswapped := (ihl (k + 1)).append (ihh (k + 1))
    rw [pivots, pivots]
    apply List.Perm.cons
    split <;> split
    · exact hstraight
    · exact hstraight.trans List.perm_append_comm
    · exact hswapped.trans List.perm_append_comm
    · exact hswapped

end DecisionTree

end Propositional
