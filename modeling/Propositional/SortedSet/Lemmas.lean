import Propositional.SortedSet.Basic

/-!
# Membership and extensionality of sorted sets

Each operation is described by the members of its result, and two sets with
the same members are equal. An injective map keeps what is known of the members
and goes through the operations.
-/

set_option autoImplicit false

namespace Propositional.SortedSet

variable {α β : Type} [Ord α] [Ord β]

@[simp] theorem not_mem_empty (a : α) : a ∉ (∅ : SortedSet α) := List.not_mem_nil

@[simp] theorem mem_singleton {a b : α} : a ∈ ({b} : SortedSet α) ↔ a = b :=
  List.mem_singleton

theorem mem_singleton_self (a : α) : a ∈ ({a} : SortedSet α) := mem_singleton.mpr rfl

theorem ne_empty_of_mem {a : α} {s : SortedSet α} (h : a ∈ s) : s ≠ ∅ := by
  rintro rfl
  exact not_mem_empty a h

theorem singleton_ne_empty (a : α) : ({a} : SortedSet α) ≠ ∅ :=
  ne_empty_of_mem (mem_singleton_self a)

@[simp] theorem mem_filter {a : α} {p : α → Bool} {s : SortedSet α} :
    a ∈ s.filter p ↔ a ∈ s ∧ p a = true :=
  List.mem_filter

@[simp] theorem mem_erase [DecidableEq α] {a b : α} {s : SortedSet α} :
    a ∈ s.erase b ↔ a ≠ b ∧ a ∈ s := by
  simp [erase, and_comm]

@[simp] theorem mem_sdiff [DecidableEq α] {a : α} {s t : SortedSet α} :
    a ∈ s \ t ↔ a ∈ s ∧ a ∉ t := by
  change a ∈ s.filter (· ∉ t) ↔ _
  simp

theorem Disjoint.mono {s t u : SortedSet α} (h : t ⊆ u) (hd : s.Disjoint u) : s.Disjoint t :=
  fun a ha ht => hd a ha (h a ht)

theorem Disjoint.symm {s t : SortedSet α} (h : s.Disjoint t) : t.Disjoint s :=
  fun a ht hs => h a hs ht

theorem not_disjoint_iff {s t : SortedSet α} : ¬s.Disjoint t ↔ ∃ a ∈ s, a ∈ t := by
  simp [Disjoint]

@[simp] theorem isEmpty_iff {s : SortedSet α} : s.isEmpty = true ↔ s = ∅ := by
  rw [isEmpty, List.isEmpty_iff, ← toList_inj]
  rfl

theorem size_eq_one_iff {s : SortedSet α} : s.size = 1 ↔ ∃ a, s = {a} := by
  rw [size, List.length_eq_one_iff]
  exact exists_congr fun a => toList_inj (t := {a})

theorem size_filter_le (p : α → Bool) (s : SortedSet α) : (s.filter p).size ≤ s.size :=
  List.length_filter_le p s.toList

theorem size_filter_lt {p : α → Bool} {s : SortedSet α} {a : α} (ha : a ∈ s)
    (hp : p a = false) : (s.filter p).size < s.size := by
  refine Nat.lt_of_le_of_ne (size_filter_le p s) fun h => ?_
  have := List.length_filter_eq_length_iff.mp h a ha
  simp [hp] at this

variable [Std.LawfulEqOrd α]

theorem nodup (s : SortedSet α) : s.toList.Nodup :=
  s.sorted.imp fun h hab => by simp [hab] at h

variable [Std.TransOrd α]

theorem ext {s t : SortedSet α} (h : ∀ a, a ∈ s ↔ a ∈ t) : s = t :=
  ext_toList (@List.Perm.eq_of_pairwise _ (fun a b => compare a b = .lt) _ _
    (fun _ _ _ _ hab hba => absurd hba (Std.OrientedCmp.not_lt_of_lt hab))
    s.sorted t.sorted ((List.perm_ext_iff_of_nodup s.nodup t.nodup).mpr h))

theorem ext_iff {s t : SortedSet α} : s = t ↔ ∀ a, a ∈ s ↔ a ∈ t :=
  ⟨fun h _ => h ▸ Iff.rfl, ext⟩

theorem eq_empty_iff {s : SortedSet α} : s = ∅ ↔ ∀ a, a ∉ s := by
  simp [ext_iff]

theorem exists_mem_of_ne_empty {s : SortedSet α} (h : s ≠ ∅) : ∃ a, a ∈ s := by
  simpa [eq_empty_iff] using h

theorem ne_empty_of_subset {s t : SortedSet α} (h : s ⊆ t) (hs : s ≠ ∅) : t ≠ ∅ := by
  obtain ⟨a, ha⟩ := exists_mem_of_ne_empty hs
  exact ne_empty_of_mem (h a ha)

theorem eq_singleton_of_subset {a : α} {s : SortedSet α} (h : s ⊆ {a}) (hs : s ≠ ∅) : s = {a} := by
  obtain ⟨b, hb⟩ := exists_mem_of_ne_empty hs
  obtain rfl : b = a := mem_singleton.mp (h b hb)
  apply ext
  intro c
  constructor
  · exact h c
  · exact fun hc => mem_singleton.mp hc ▸ hb

@[simp] theorem mem_insert {a b : α} {s : SortedSet α} : a ∈ insert b s ↔ a = b ∨ a ∈ s :=
  mem_insertSorted

instance : LawfulSingleton α (SortedSet α) := ⟨fun _ => rfl⟩

@[simp] theorem mem_ofList {a : α} {l : List α} : a ∈ ofList l ↔ a ∈ l := by
  induction l with
  | nil => simp [ofList]
  | cons b l ih =>
    rw [ofList, List.foldr_cons, mem_insert, List.mem_cons]
    exact or_congr_right ih

@[simp] theorem mem_map {a : α} {f : β → α} {s : SortedSet β} :
    a ∈ s.map f ↔ ∃ b ∈ s, f b = a := by
  rw [map, mem_ofList, List.mem_map]
  rfl

@[simp] theorem mem_filterMap {a : α} {f : β → Option α} {s : SortedSet β} :
    a ∈ s.filterMap f ↔ ∃ b ∈ s, f b = some a := by
  rw [filterMap, mem_ofList, List.mem_filterMap]
  rfl

@[simp] theorem mem_union {a : α} {s t : SortedSet α} : a ∈ s ∪ t ↔ a ∈ s ∨ a ∈ t := by
  change a ∈ s.toList.foldr insert t ↔ a ∈ s.toList ∨ a ∈ t
  induction s.toList with
  | nil => simp
  | cons b l ih => simp [ih, or_assoc]

theorem union_comm {s t : SortedSet α} : s ∪ t = t ∪ s := by
  apply ext
  intro a
  rw [mem_union, mem_union, or_comm]

theorem subset_union_left {s t : SortedSet α} : s ⊆ s ∪ t := fun _ ha => mem_union.mpr (.inl ha)

theorem subset_union_right {s t : SortedSet α} : t ⊆ s ∪ t := fun _ ha => mem_union.mpr (.inr ha)

theorem union_ne_empty {s t : SortedSet α} (h : s ≠ ∅) : s ∪ t ≠ ∅ :=
  ne_empty_of_subset subset_union_left h

section Image

variable {f : β → α} {s t : SortedSet β}

theorem mem_map_of_injective (hf : Function.Injective f) {b : β} : f b ∈ s.map f ↔ b ∈ s := by
  rw [mem_map]
  constructor
  · rintro ⟨b', hb', hbb⟩
    exact hf hbb ▸ hb'
  · exact fun hb => ⟨b, hb, rfl⟩

theorem map_congr {g : β → α} (h : ∀ b ∈ s, f b = g b) : s.map f = s.map g :=
  congrArg ofList (List.map_congr_left h)

theorem map_sdiff [DecidableEq α] [DecidableEq β] (hf : Function.Injective f) :
    (s \ t).map f = s.map f \ t.map f := by
  apply ext
  intro a
  rw [mem_sdiff, mem_map, mem_map]
  constructor
  · rintro ⟨b, hb, rfl⟩
    obtain ⟨hs, ht⟩ := mem_sdiff.mp hb
    exact ⟨⟨b, hs, rfl⟩, fun h => ht ((mem_map_of_injective hf).mp h)⟩
  · rintro ⟨⟨b, hb, rfl⟩, ha⟩
    exact ⟨b, mem_sdiff.mpr ⟨hb, fun h => ha ((mem_map_of_injective hf).mpr h)⟩, rfl⟩

theorem disjoint_map (hf : Function.Injective f) :
    (s.map f).Disjoint (t.map f) ↔ s.Disjoint t := by
  constructor
  · intro h b hs ht
    exact h (f b) ((mem_map_of_injective hf).mpr hs) ((mem_map_of_injective hf).mpr ht)
  · intro h a hs ht
    obtain ⟨b, hb, rfl⟩ := mem_map.mp hs
    exact h b hb ((mem_map_of_injective hf).mp ht)

variable [Std.LawfulEqOrd β] [Std.TransOrd β]

theorem map_map {γ : Type} [Ord γ] {g : γ → β} {u : SortedSet γ} :
    (u.map g).map f = u.map fun c => f (g c) := by
  apply ext
  intro a
  simp only [mem_map]
  constructor
  · rintro ⟨_, ⟨c, hc, rfl⟩, rfl⟩
    exact ⟨c, hc, rfl⟩
  · rintro ⟨c, hc, rfl⟩
    exact ⟨g c, ⟨c, hc, rfl⟩, rfl⟩

theorem map_insert (b : β) : (insert b s).map f = insert (f b) (s.map f) := by
  apply ext
  intro a
  simp [eq_comm]

theorem map_union : (s ∪ t).map f = s.map f ∪ t.map f := by
  apply ext
  intro a
  simp only [mem_map, mem_union, or_and_right, exists_or]

theorem map_eq_empty_iff : s.map f = ∅ ↔ s = ∅ := by
  simp only [eq_empty_iff, mem_map]
  constructor
  · intro h b hb
    exact h (f b) ⟨b, hb, rfl⟩
  · rintro h a ⟨b, hb, -⟩
    exact h b hb

theorem map_injective (hf : Function.Injective f) :
    Function.Injective (map f : SortedSet β → SortedSet α) := by
  intro s t h
  apply ext
  intro b
  rw [← mem_map_of_injective hf, h, mem_map_of_injective hf]

end Image

end Propositional.SortedSet
