/-!
# Finite sets as strictly increasing lists

A finite set over an ordered type is kept as the increasing list of its
elements, so reading a set in order is reading its list. The list is
determined by the members: sets that agree on membership are equal, and
every operation below is known by the members of its result.
-/

set_option autoImplicit false

namespace Propositional

structure SortedSet (α : Type) [Ord α] where
  toList : List α
  sorted : toList.Pairwise (fun a b => compare a b = .lt)

namespace SortedSet

variable {α β : Type} [Ord α] [Ord β]

theorem ext_toList {s t : SortedSet α} (h : s.toList = t.toList) : s = t := by
  cases s
  cases t
  cases h
  rfl

theorem toList_inj {s t : SortedSet α} : s.toList = t.toList ↔ s = t :=
  ⟨ext_toList, fun h => h ▸ rfl⟩

instance [DecidableEq α] : DecidableEq (SortedSet α) := fun _ _ =>
  decidable_of_iff _ toList_inj

instance : Membership α (SortedSet α) := ⟨fun s a => a ∈ s.toList⟩

theorem mem_def {a : α} {s : SortedSet α} : a ∈ s ↔ a ∈ s.toList := Iff.rfl

instance [DecidableEq α] (a : α) (s : SortedSet α) : Decidable (a ∈ s) :=
  inferInstanceAs (Decidable (a ∈ s.toList))

instance decidableAll (s : SortedSet α) (p : α → Prop) [DecidablePred p] :
    Decidable (∀ a ∈ s, p a) :=
  inferInstanceAs (Decidable (∀ a ∈ s.toList, p a))

instance decidableAny (s : SortedSet α) (p : α → Prop) [DecidablePred p] :
    Decidable (∃ a ∈ s, p a) :=
  inferInstanceAs (Decidable (∃ a ∈ s.toList, p a))

instance : EmptyCollection (SortedSet α) := ⟨[], .nil⟩

instance : Inhabited (SortedSet α) := ⟨∅⟩

instance : Singleton α (SortedSet α) := ⟨fun a => ⟨[a], List.pairwise_singleton _ a⟩⟩

def size (s : SortedSet α) : Nat := s.toList.length

def isEmpty (s : SortedSet α) : Bool := s.toList.isEmpty

instance : Ord (SortedSet α) := ⟨fun s t => List.compareLex compare s.toList t.toList⟩

instance [Std.TransOrd α] : Std.TransOrd (SortedSet α) where
  eq_swap {s t} := @Std.OrientedCmp.eq_swap _ (List.compareLex compare) _ s.toList t.toList
  isLE_trans {s t u} :=
    @Std.TransCmp.isLE_trans _ (List.compareLex compare) _ s.toList t.toList u.toList

instance [Std.LawfulEqOrd α] : Std.LawfulEqOrd (SortedSet α) where
  compare_self {s} := @Std.ReflCmp.compare_self _ (List.compareLex compare) _ s.toList
  eq_of_compare h := ext_toList (@Std.LawfulEqCmp.eq_of_compare _ (List.compareLex compare) _ _ _ h)

def insertSorted (a : α) : List α → List α
  | [] => [a]
  | b :: rest =>
    match compare a b with
    | .lt => a :: b :: rest
    | .eq => b :: rest
    | .gt => b :: insertSorted a rest

theorem mem_insertSorted [Std.LawfulEqOrd α] {a x : α} {l : List α} :
    x ∈ insertSorted a l ↔ x = a ∨ x ∈ l := by
  induction l with
  | nil => simp [insertSorted]
  | cons b rest ih =>
    rw [insertSorted]
    cases h : compare a b with
    | lt => simp
    | eq => simp [Std.compare_eq_iff_eq.mp h]
    | gt => simp [ih, or_left_comm]

theorem pairwise_insertSorted [Std.TransOrd α] [Std.LawfulEqOrd α] {a : α} {l : List α}
    (hl : l.Pairwise (fun a b => compare a b = .lt)) :
    (insertSorted a l).Pairwise (fun a b => compare a b = .lt) := by
  induction l with
  | nil => simp [insertSorted]
  | cons b rest ih =>
    obtain ⟨hb, hrest⟩ := List.pairwise_cons.mp hl
    rw [insertSorted]
    cases h : compare a b with
    | lt =>
      refine List.Pairwise.cons (fun x hx => ?_) hl
      rcases List.mem_cons.mp hx with rfl | hx
      · exact h
      · exact Std.TransCmp.lt_trans h (hb x hx)
    | eq => exact hl
    | gt =>
      refine List.Pairwise.cons (fun x hx => ?_) (ih hrest)
      rcases mem_insertSorted.mp hx with rfl | hx
      · exact Std.OrientedCmp.gt_iff_lt.mp h
      · exact hb x hx

variable [Std.TransOrd α] [Std.LawfulEqOrd α] [Std.TransOrd β] [Std.LawfulEqOrd β]

instance : Insert α (SortedSet α) := ⟨fun a s => ⟨insertSorted a s.toList,
  pairwise_insertSorted s.sorted⟩⟩

def ofList (l : List α) : SortedSet α := l.foldr insert ∅

def filter (p : α → Bool) (s : SortedSet α) : SortedSet α :=
  ⟨s.toList.filter p, s.sorted.filter p⟩

def erase [DecidableEq α] (s : SortedSet α) (a : α) : SortedSet α := s.filter (· ≠ a)

def map (f : α → β) (s : SortedSet α) : SortedSet β := ofList (s.toList.map f)

def filterMap (f : α → Option β) (s : SortedSet α) : SortedSet β :=
  ofList (s.toList.filterMap f)

instance : Union (SortedSet α) := ⟨fun s t => s.toList.foldr insert t⟩

instance [DecidableEq α] : SDiff (SortedSet α) := ⟨fun s t => s.filter (· ∉ t)⟩

def Disjoint (s t : SortedSet α) : Prop := ∀ a ∈ s, a ∉ t

instance [DecidableEq α] (s t : SortedSet α) : Decidable (s.Disjoint t) :=
  inferInstanceAs (Decidable (∀ a ∈ s, a ∉ t))

instance : HasSubset (SortedSet α) := ⟨fun s t => ∀ a ∈ s, a ∈ t⟩

instance [DecidableEq α] (s t : SortedSet α) : Decidable (s ⊆ t) :=
  inferInstanceAs (Decidable (∀ a ∈ s, a ∈ t))

end SortedSet

end Propositional
