import Mathlib.Data.List.Perm.Subperm
import Propositional.SortedSet.Lemmas

/-!
# Sizes of sorted sets

The list of a set repeats nothing, so a set is no larger than any list that
holds its elements, and no smaller than a list of elements that repeats none.
The bounds on unions, images and parts of a set follow.
-/

set_option autoImplicit false

namespace Propositional.SortedSet

variable {α β : Type} [Ord α] [Ord β]

theorem length_le_size {l : List α} {s : SortedSet α} (hl : l.Nodup) (h : ∀ a ∈ l, a ∈ s) :
    l.length ≤ s.size :=
  (List.subperm_of_subset hl h).length_le

variable [Std.LawfulEqOrd α]

theorem size_le_length {s : SortedSet α} {l : List α} (h : ∀ a ∈ s, a ∈ l) : s.size ≤ l.length :=
  (List.subperm_of_subset s.nodup h).length_le

theorem size_le_of_subset {s t : SortedSet α} (h : s ⊆ t) : s.size ≤ t.size := size_le_length h

theorem size_lt_of_subset [DecidableEq α] {s t : SortedSet α} {a : α} (h : s ⊆ t) (ha : a ∈ t)
    (hs : a ∉ s) : s.size < t.size := by
  have hsub : s ⊆ t.erase a := by
    intro b hb
    exact mem_erase.mpr ⟨fun hba => hs (hba ▸ hb), h b hb⟩
  calc s.size ≤ (t.erase a).size := size_le_of_subset hsub
    _ < t.size := size_filter_lt ha (by simp)

variable [Std.TransOrd α]

theorem size_union_le (s t : SortedSet α) : (s ∪ t).size ≤ s.size + t.size := by
  have hle : (s ∪ t).size ≤ (s.toList ++ t.toList).length :=
    size_le_length fun a ha => List.mem_append.mpr (mem_union.mp ha)
  rwa [List.length_append] at hle

theorem size_ofList_le (l : List α) : (ofList l).size ≤ l.length :=
  size_le_length fun _ => mem_ofList.mp

theorem size_map_le (f : β → α) (s : SortedSet β) : (s.map f).size ≤ s.size := by
  calc (s.map f).size ≤ (s.toList.map f).length := size_ofList_le _
    _ = s.size := List.length_map f

theorem size_filterMap_le (f : β → Option α) (s : SortedSet β) :
    (s.filterMap f).size ≤ s.size := by
  calc (s.filterMap f).size ≤ (s.toList.filterMap f).length := size_ofList_le _
    _ ≤ s.size := List.length_filterMap_le f s.toList

end Propositional.SortedSet
