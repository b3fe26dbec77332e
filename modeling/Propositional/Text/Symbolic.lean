import Propositional.ClauseSet.Basic
import Propositional.Reading
import Propositional.UnitPropagation

/-!
# Formulas and clause sets in symbols

Truth values are written 1 and 0, negation is a sign before its operand, and
a connective stands between its operands with a blank on each side. An operand
is put in parentheses exactly when it is binary itself. Clauses are always put
in parentheses, also those of one literal or of none.
-/

set_option autoImplicit false

namespace Propositional

namespace Text

def ofBool : Bool → String
  | true => "1"
  | false => "0"

def parenthesize (s : String) : String := "(" ++ s ++ ")"

def separator (c : Connective) : String := " " ++ c.symbol ++ " "

end Text

namespace Formula

def text : Formula → String
  | const b => Text.ofBool b
  | var v => v.name
  | not f => "¬" ++ if f.isBinary then Text.parenthesize f.text else f.text
  | binary c l r =>
    (if l.isBinary then Text.parenthesize l.text else l.text) ++ Text.separator c ++
      (if r.isBinary then Text.parenthesize r.text else r.text)

end Formula

namespace Literal

def text (l : Literal) : String := if l.negated then "¬" ++ l.var.name else l.var.name

end Literal

namespace Clause

def text (c : Clause) (r : Reading) : String :=
  Text.parenthesize ((Text.separator r.inner).intercalate (c.toList.map Literal.text))

end Clause

namespace ClauseSet

def text (s : ClauseSet) (r : Reading) : String :=
  match s with
  | const b => Text.ofBool b
  | clauses cs => (Text.separator r.outer).intercalate (cs.toList.map (Clause.text · r))

end ClauseSet

namespace Collapse

def text : Collapse → String
  | noClauses => "no clauses"
  | contradiction l => "both " ++ l.text ++ " and " ++ l.negate.text ++ " are forced"
  | emptiedClause => "emptied a clause"

end Collapse

end Propositional
