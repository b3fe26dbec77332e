import Propositional.Proofs.Text.Delimiting

/-!
# The text of a clause set determines the set

A literal is delimited like a name, since no name begins with the negation sign.
The literals of a clause are joined and put in parentheses, so a clause is
delimited whatever follows it, and the clauses of a set are joined again. The
text of a truth value begins with a digit, that of clauses with a parenthesis,
and that of no clauses is empty: in one reading no two sets are printed the same.
-/

set_option autoImplicit false

namespace Propositional

open Text

variable {r : Reading}

namespace Literal

theorem toList_text_positive (v : Variable) (s : List Char) :
    (mk v false).text.toList ++ s = v.name.toList ++ s := rfl

theorem toList_text_negative (v : Variable) (s : List Char) :
    (mk v true).text.toList ++ s = '¬' :: (v.name.toList ++ s) := by
  have htext : (mk v true).text = "¬" ++ v.name := rfl
  rw [htext, String.toList_append]
  rfl

theorem delimited_text (l : Literal) : Delimited text AfterName l := by
  obtain ⟨v, m⟩ := l
  rintro ⟨w, n⟩ s t hs ht h
  cases m with
  | false =>
    cases n with
    | false =>
      obtain ⟨rfl, hst⟩ := delimited_name v w s t hs ht h
      exact ⟨rfl, hst⟩
    | true =>
      rw [toList_text_positive, toList_text_negative] at h
      exact absurd h (name_append_ne_cons v (by decide) _ _)
  | true =>
    cases n with
    | false =>
      rw [toList_text_positive, toList_text_negative] at h
      exact absurd h.symm (name_append_ne_cons w (by decide) _ _)
    | true =>
      rw [toList_text_negative, toList_text_negative] at h
      obtain ⟨rfl, hst⟩ := delimited_name v w s t hs ht (List.cons.inj h).2
      exact ⟨rfl, hst⟩

theorem close_ne_text_append (l : Literal) (s u : List Char) : ')' :: s ≠ l.text.toList ++ u := by
  intro h
  obtain ⟨v, _ | _⟩ := l
  · rw [toList_text_positive] at h
    exact name_append_ne_cons v (by decide) _ _ h.symm
  · rw [toList_text_negative] at h
    exact absurd (List.cons.inj h).1 (by decide)

end Literal

namespace Clause

theorem afterList_of_close (c : Connective) (s : List Char) :
    AfterList Literal.text AfterName (separator c) (')' :: s) where
  rest := afterName_cons s (by decide)
  not_separator := ne_separator_append c (by simp)
  not_value l u := l.close_ne_text_append s u

theorem toList_text (c : Clause) (r : Reading) (s : List Char) :
    (text c r).toList ++ s =
      '(' :: (((separator r.inner).intercalate (c.toList.map Literal.text)).toList ++ ')' :: s) := by
  rw [text, toList_parenthesize, List.cons_append, List.append_assoc]
  rfl

/-- The closing parenthesis ends a clause, so anything may follow. -/
theorem delimited_text (r : Reading) (c : Clause) :
    Delimited (text · r) (fun _ => True) c := by
  intro d s t _ _ h
  rw [toList_text, toList_text] at h
  obtain ⟨hlist, hrest⟩ :=
    delimited_intercalate (afterName_separator r.inner) Literal.delimited_text c.toList d.toList
      _ _ (afterList_of_close r.inner s) (afterList_of_close r.inner t) (List.cons.inj h).2
  exact ⟨SortedSet.ext_toList hlist, (List.cons.inj hrest).2⟩

end Clause

namespace ClauseSet

theorem afterList_nil (r : Reading) :
    AfterList (Clause.text · r) (fun _ => True) (separator r.outer) [] where
  rest := trivial
  not_separator := ne_separator_append r.outer nofun
  not_value c u := by
    rw [Clause.toList_text]
    simp

theorem text_clauses_ne_ofBool (r : Reading) (cs : SortedSet Clause) (b : Bool) :
    (clauses cs).text r ≠ Text.ofBool b := by
  intro h
  have hlist := String.toList_inj.mpr h
  rw [text] at hlist
  cases hcs : cs.toList with
  | nil =>
    rw [hcs] at hlist
    cases b <;> simp [Text.ofBool] at hlist
  | cons c l =>
    rw [hcs, ← List.append_nil (String.toList _), toList_intercalate_cons, Clause.toList_text]
      at hlist
    cases b <;> simp [Text.ofBool] at hlist

/-- In each reading two sets are printed the same only if they are the same,
degenerate ones and truth values included. -/
theorem text_inj_of_reading (r : Reading) {a b : ClauseSet} : a.text r = b.text r ↔ a = b := by
  refine ⟨fun h => ?_, congrArg (text · r)⟩
  cases a with
  | const x =>
    cases b with
    | const y => exact congrArg const (ofBool_injective h)
    | clauses ds => exact absurd h.symm (text_clauses_ne_ofBool r ds x)
  | clauses cs =>
    cases b with
    | const y => exact absurd h (text_clauses_ne_ofBool r cs y)
    | clauses ds =>
      have hlist : ((clauses cs).text r).toList ++ [] = ((clauses ds).text r).toList ++ [] := by
        rw [h]
      obtain ⟨hcs, -⟩ := delimited_intercalate (fun _ => trivial) (Clause.delimited_text r)
        cs.toList ds.toList [] [] (afterList_nil r) (afterList_nil r) hlist
      rw [SortedSet.ext_toList hcs]

end ClauseSet

end Propositional
