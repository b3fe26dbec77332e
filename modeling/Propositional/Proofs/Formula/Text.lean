import Propositional.Proofs.Text.Delimiting

/-!
# The text of a formula determines the formula

As an operand a formula is printed with parentheses if it is binary. Operands
are delimited before everything that does not lengthen a name: the first
character tells the kind of the formula, and an inner operand is followed by a
blank or a closing parenthesis. A whole text is an operand, or two operands
around a connective; the first operand ends at the same place in both, so the
two kinds of text are never the same.
-/

set_option autoImplicit false

namespace Propositional.Formula

open Text

variable {f g : Formula} {s t : List Char}

def operandText (f : Formula) : String := if f.isBinary then parenthesize f.text else f.text

theorem toList_text_binary (c : Connective) (l r : Formula) (s : List Char) :
    (binary c l r).text.toList ++ s =
      l.operandText.toList ++ ((separator c).toList ++ (r.operandText.toList ++ s)) := by
  have htext : (binary c l r).text = l.operandText ++ separator c ++ r.operandText := rfl
  rw [htext, String.toList_append, String.toList_append, List.append_assoc, List.append_assoc]

theorem toList_operandText_not (f : Formula) (s : List Char) :
    (not f).operandText.toList ++ s = '¬' :: (f.operandText.toList ++ s) := by
  have htext : (not f).operandText = "¬" ++ f.operandText := rfl
  rw [htext, String.toList_append, List.append_assoc]
  rfl

theorem toList_operandText_binary (c : Connective) (l r : Formula) (s : List Char) :
    (binary c l r).operandText.toList ++ s = '(' :: ((binary c l r).text.toList ++ ')' :: s) := by
  have htext : (binary c l r).operandText = parenthesize (binary c l r).text := rfl
  rw [htext, toList_parenthesize, List.cons_append, List.append_assoc]
  rfl

def sign? (c : Char) : Option Char := if isNameHead c then none else some c

def lead : Formula → Option Char
  | const b => some (if b then '1' else '0')
  | var _ => none
  | not _ => some '¬'
  | binary .. => some '('

theorem head?_operandText (f : Formula) (s : List Char) :
    (f.operandText.toList ++ s).head?.map sign? = some f.lead := by
  cases f with
  | const b => cases b <;> rfl
  | var v =>
    obtain ⟨c, rest, hname, hc, -⟩ := exists_cons_of_name v
    have htext : (var v).operandText = v.name := rfl
    rw [htext, hname]
    simp [sign?, hc, lead]
  | not f => rw [toList_operandText_not]; rfl
  | binary c l r => rw [toList_operandText_binary]; rfl

theorem lead_eq (h : f.operandText.toList ++ s = g.operandText.toList ++ t) : f.lead = g.lead := by
  have hhead := congrArg (fun cs : List Char => cs.head?.map sign?) h
  rw [head?_operandText, head?_operandText] at hhead
  exact Option.some.inj hhead

theorem eq_const_of_lead_eq {b : Bool} (h : (const b).lead = f.lead) : f = const b := by
  cases f with
  | const a => cases a <;> cases b <;> simp [lead] at h ⊢
  | var v => cases h
  | not g => cases b <;> simp [lead] at h
  | binary c l r => cases b <;> simp [lead] at h

theorem exists_var_of_lead_eq {v : Variable} (h : (var v).lead = f.lead) : ∃ w, f = var w := by
  cases f with
  | var w => exact ⟨w, rfl⟩
  | const b => cases h
  | not g => cases h
  | binary c l r => cases h

theorem exists_not_of_lead_eq (h : (not g).lead = f.lead) : ∃ g', f = not g' := by
  cases f with
  | not g' => exact ⟨g', rfl⟩
  | const b => cases b <;> simp [lead] at h
  | var w => cases h
  | binary c l r => simp [lead] at h

theorem exists_binary_of_lead_eq {c : Connective} {l r : Formula}
    (h : (binary c l r).lead = f.lead) : ∃ d l' r', f = binary d l' r' := by
  cases f with
  | binary d l' r' => exact ⟨d, l', r', rfl⟩
  | const b => cases b <;> simp [lead] at h
  | var w => cases h
  | not g => simp [lead] at h

/-- Binary formulas without parentheses, where operands are delimited. -/
theorem delimited_binary {c : Connective} {l r : Formula} (hl : Delimited operandText AfterName l)
    (hr : Delimited operandText AfterName r) {d : Connective} {l' r' : Formula}
    (hs : AfterName s) (ht : AfterName t)
    (h : (binary c l r).text.toList ++ s = (binary d l' r').text.toList ++ t) :
    binary c l r = binary d l' r' ∧ s = t := by
  rw [toList_text_binary, toList_text_binary] at h
  obtain ⟨rfl, hrest⟩ := hl l' _ _ (afterName_separator c _) (afterName_separator d _) h
  obtain ⟨rfl, hright⟩ := delimited_separator c d _ _ trivial trivial hrest
  obtain ⟨rfl, hst⟩ := hr r' s t hs ht hright
  exact ⟨rfl, hst⟩

theorem delimited_operandText (f : Formula) : Delimited operandText AfterName f := by
  induction f with
  | const b =>
    intro g s t _ _ h
    obtain rfl := eq_const_of_lead_eq (lead_eq h)
    exact ⟨rfl, List.append_cancel_left h⟩
  | var v =>
    intro g s t hs ht h
    obtain ⟨w, rfl⟩ := exists_var_of_lead_eq (lead_eq h)
    obtain ⟨rfl, hst⟩ := delimited_name v w s t hs ht h
    exact ⟨rfl, hst⟩
  | not f ih =>
    intro g s t hs ht h
    obtain ⟨g, rfl⟩ := exists_not_of_lead_eq (lead_eq h)
    rw [toList_operandText_not, toList_operandText_not] at h
    obtain ⟨rfl, hst⟩ := ih g s t hs ht (List.cons.inj h).2
    exact ⟨rfl, hst⟩
  | binary c l r ihl ihr =>
    intro g s t _ _ h
    obtain ⟨d, l', r', rfl⟩ := exists_binary_of_lead_eq (lead_eq h)
    rw [toList_operandText_binary, toList_operandText_binary] at h
    have hclose (rest : List Char) : AfterName (')' :: rest) := afterName_cons rest (by decide)
    obtain ⟨hbinary, hst⟩ := delimited_binary ihl ihr (hclose s) (hclose t) (List.cons.inj h).2
    exact ⟨hbinary, (List.cons.inj hst).2⟩

theorem text_eq_operandText (h : f.isBinary = false) : f.text = f.operandText := by
  rw [operandText, h]
  rfl

/-- An operand is no text of a binary formula, whose first operand would be it
and leave a connective over. -/
theorem text_ne_text_binary (h : f.isBinary = false) (c : Connective) (l r : Formula) :
    f.text ≠ (binary c l r).text := by
  intro heq
  have hlist : f.operandText.toList ++ [] = (binary c l r).text.toList ++ [] := by
    rw [← text_eq_operandText h, heq]
  rw [toList_text_binary] at hlist
  obtain ⟨-, hrest⟩ :=
    delimited_operandText f l _ _ afterName_nil (afterName_separator c _) hlist
  exact ne_separator_append c (by simp) _ hrest

theorem binary_eq_of_text_eq {c d : Connective} {l r l' r' : Formula}
    (h : (binary c l r).text = (binary d l' r').text) : binary c l r = binary d l' r' :=
  (delimited_binary (delimited_operandText l) (delimited_operandText r) afterName_nil
    afterName_nil (by rw [h])).1

/-- Two formulas are printed the same only if they are the same, node for node,
whether or not they could be simplified. -/
theorem text_inj {f g : Formula} : f.text = g.text ↔ f = g := by
  refine ⟨fun h => ?_, congrArg text⟩
  cases hf : f.isBinary with
  | false =>
    cases hg : g.isBinary with
    | false =>
      rw [text_eq_operandText hf, text_eq_operandText hg] at h
      exact (delimited_operandText f g [] [] afterName_nil afterName_nil (by rw [h])).1
    | true =>
      obtain ⟨c, l, r, rfl⟩ := isBinary_iff.mp hg
      exact absurd h (text_ne_text_binary hf c l r)
  | true =>
    obtain ⟨c, l, r, rfl⟩ := isBinary_iff.mp hf
    cases hg : g.isBinary with
    | false => exact absurd h.symm (text_ne_text_binary hg c l r)
    | true =>
      obtain ⟨d, l', r', rfl⟩ := isBinary_iff.mp hg
      exact binary_eq_of_text_eq h

end Propositional.Formula
