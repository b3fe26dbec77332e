import Propositional.Text.Symbolic

/-!
# Texts that tell where they end

A printed value is delimited before certain rests when no other value, followed
by such a rest, gives the same characters: the value can be read off, and so can
the rest. A name is delimited before whatever does not go on with a character of
names. Values that are delimited before a separator give a delimited list when
they are joined by it, provided that the rest after the list begins neither as
the separator nor as a value does.
-/

set_option autoImplicit false

namespace Propositional.Text

variable {α : Type} {print : α → String} {rests : List Char → Prop} {sep : String}

/-- The characters of the value and a rest belong to no other value and rest. -/
def Delimited (print : α → String) (rests : List Char → Prop) (a : α) : Prop :=
  ∀ b s t, rests s → rests t → (print a).toList ++ s = (print b).toList ++ t → a = b ∧ s = t

def AfterName (rest : List Char) : Prop := ∀ c ∈ rest.head?, isNameTail c = false

theorem afterName_nil : AfterName [] := fun _ hc => by cases hc

theorem afterName_cons {c : Char} (rest : List Char) (h : isNameTail c = false) :
    AfterName (c :: rest) := fun _ hd => Option.some.inj hd ▸ h

theorem isNameTail_of_isNameHead {c : Char} (h : isNameHead c = true) : isNameTail c = true := by
  rw [isNameHead, Bool.or_eq_true] at h
  rw [isNameTail, Bool.or_eq_true, Char.isAlphanum, Bool.or_eq_true]
  exact h.imp_left .inl

theorem exists_cons_of_name (v : Variable) :
    ∃ c rest, v.name.toList = c :: rest ∧ isNameHead c = true ∧ ∀ d ∈ rest, isNameTail d = true := by
  have hvalid : isNameList v.name.toList = true := v.valid
  cases h : v.name.toList with
  | nil =>
    rw [h] at hvalid
    cases hvalid
  | cons c rest =>
    rw [h, isNameList, Bool.and_eq_true, List.all_eq_true] at hvalid
    exact ⟨c, rest, rfl, hvalid⟩

theorem name_append_ne_cons (v : Variable) {c : Char} (hc : isNameHead c = false)
    (s u : List Char) : v.name.toList ++ s ≠ c :: u := by
  obtain ⟨d, rest, hname, hd, -⟩ := exists_cons_of_name v
  rw [hname, List.cons_append]
  intro h
  rw [(List.cons.inj h).1, hc] at hd
  cases hd

theorem takeWhile_name (v : Variable) {s : List Char} (hs : AfterName s) :
    (v.name.toList ++ s).takeWhile isNameTail = v.name.toList := by
  obtain ⟨c, rest, hname, hc, hrest⟩ := exists_cons_of_name v
  have hall : ∀ d ∈ v.name.toList, isNameTail d = true := by
    rw [hname]
    exact List.forall_mem_cons.mpr ⟨isNameTail_of_isNameHead hc, hrest⟩
  rw [List.takeWhile_append_of_pos hall]
  cases s with
  | nil => exact List.append_nil _
  | cons d s =>
    rw [List.takeWhile_cons_of_neg (by simp [hs d rfl])]
    exact List.append_nil _

theorem delimited_name (v : Variable) : Delimited Variable.name AfterName v := by
  intro w s t hs ht h
  have hname : v.name.toList = w.name.toList := by
    rw [← takeWhile_name v hs, h, takeWhile_name w ht]
  have hvar : v = w := Variable.ext_name (String.toList_inj.mp hname)
  rw [hvar] at h
  exact ⟨hvar, List.append_cancel_left h⟩

theorem exists_toList_separator (c : Connective) :
    ∃ sign, (separator c).toList = [' ', sign, ' '] ∧ c.symbol.toList = [sign] := by
  cases c
  · exact ⟨'∧', by decide, by decide⟩
  · exact ⟨'∨', by decide, by decide⟩
  · exact ⟨'→', by decide, by decide⟩

theorem delimited_separator (c : Connective) : Delimited separator (fun _ => True) c := by
  intro d s t _ _ h
  obtain ⟨sign, hsep, hsign⟩ := exists_toList_separator c
  obtain ⟨sign', hsep', hsign'⟩ := exists_toList_separator d
  rw [hsep, hsep'] at h
  simp only [List.cons_append, List.nil_append, List.cons.injEq, true_and] at h
  obtain ⟨rfl, hrest⟩ := h
  exact ⟨Connective.symbol_injective (String.toList_inj.mp (hsign.trans hsign'.symm)), hrest⟩

theorem afterName_separator (c : Connective) (rest : List Char) :
    AfterName ((separator c).toList ++ rest) := by
  obtain ⟨sign, hsep, -⟩ := exists_toList_separator c
  rw [hsep]
  exact afterName_cons _ (by decide)

theorem ne_separator_append (c : Connective) {s : List Char} (h : s.head? ≠ some ' ')
    (u : List Char) : s ≠ (separator c).toList ++ u := by
  rintro rfl
  obtain ⟨sign, hsep, -⟩ := exists_toList_separator c
  rw [hsep] at h
  exact h rfl

theorem ofBool_injective : Function.Injective ofBool := by
  intro a b h
  revert a b
  decide

theorem toList_parenthesize (s : String) : (parenthesize s).toList = '(' :: (s.toList ++ [')']) := by
  rw [parenthesize, String.toList_append, String.toList_append]
  rfl

def followers (sep : String) (print : α → String) : List α → List Char → List Char
  | [], s => s
  | x :: xs, s => sep.toList ++ ((print x).toList ++ followers sep print xs s)

theorem toList_intercalate_cons (x : α) (xs : List α) (s : List Char) :
    (sep.intercalate ((x :: xs).map print)).toList ++ s =
      (print x).toList ++ followers sep print xs s := by
  rw [String.toList_intercalate]
  induction xs generalizing x with
  | nil => rw [List.map_singleton, List.map_singleton, List.intercalate_singleton, followers]
  | cons y xs ih =>
    rw [followers, ← ih y, List.map_cons, List.map_cons, List.map_cons, List.map_cons,
      List.intercalate_cons_cons, List.append_assoc, List.append_assoc]

structure AfterList (print : α → String) (rests : List Char → Prop) (sep : String)
    (s : List Char) : Prop where
  rest : rests s
  not_separator : ∀ u, s ≠ sep.toList ++ u
  not_value : ∀ a u, s ≠ (print a).toList ++ u

variable {s t : List Char} {xs ys : List α}

section Joined

variable (hsep : ∀ u, rests (sep.toList ++ u)) (hprint : ∀ a, Delimited print rests a)

include hsep

theorem rests_followers (hs : AfterList print rests sep s) (xs : List α) :
    rests (followers sep print xs s) := by
  cases xs with
  | nil => exact hs.rest
  | cons x xs => exact hsep _

include hprint

theorem followers_inj (hs : AfterList print rests sep s) (ht : AfterList print rests sep t)
    (h : followers sep print xs s = followers sep print ys t) : xs = ys ∧ s = t := by
  induction xs generalizing ys with
  | nil =>
    cases ys with
    | nil => exact ⟨rfl, h⟩
    | cons y ys => exact absurd h (hs.not_separator _)
  | cons x xs ih =>
    cases ys with
    | nil => exact absurd h.symm (ht.not_separator _)
    | cons y ys =>
      obtain ⟨rfl, htail⟩ := hprint x y _ _ (rests_followers hsep hs xs)
        (rests_followers hsep ht ys) (List.append_cancel_left h)
      obtain ⟨rfl, hrest⟩ := ih htail
      exact ⟨rfl, hrest⟩

/-- Joined values are delimited before the rests after a list. -/
theorem delimited_intercalate (xs : List α) :
    Delimited (fun xs : List α => sep.intercalate (xs.map print))
      (AfterList print rests sep) xs := by
  intro ys s t hs ht h
  cases xs with
  | nil =>
    cases ys with
    | nil => exact ⟨rfl, h⟩
    | cons y ys =>
      rw [toList_intercalate_cons] at h
      exact absurd h (hs.not_value y _)
  | cons x xs =>
    cases ys with
    | nil =>
      rw [toList_intercalate_cons] at h
      exact absurd h.symm (ht.not_value x _)
    | cons y ys =>
      rw [toList_intercalate_cons, toList_intercalate_cons] at h
      have hfollowers : followers sep print (x :: xs) s = followers sep print (y :: ys) t :=
        congrArg (sep.toList ++ ·) h
      exact followers_inj hsep hprint hs ht hfollowers

end Joined

end Propositional.Text
