import Propositional.Text.Symbolic
import Propositional.Assignment

/-!
# Values spelled out by their constructors

The spelling of a value names each constructor and lists its parts. Variables
and literals keep their symbolic text, and sets and assignments are listed in
braces in their order.
-/

set_option autoImplicit false

namespace Propositional

namespace Text

def spellBool : Bool → String
  | true => "True"
  | false => "False"

def apply (constructor : String) (parts : List String) : String :=
  constructor ++ parenthesize (", ".intercalate parts)

def braces (parts : List String) : String := "\x7b" ++ ", ".intercalate parts ++ "\x7d"

end Text

namespace Connective

def spelling : Connective → String
  | .and => "And"
  | .or => "Or"
  | .implies => "Implies"

end Connective

namespace Reading

def spelling : Reading → String
  | conjunctive => "Conjunctive"
  | disjunctive => "Disjunctive"

end Reading

namespace Formula

def spelling : Formula → String
  | const b => Text.apply "Const" [Text.spellBool b]
  | var v => Text.apply "Var" [v.name]
  | not f => Text.apply "Not" [f.spelling]
  | binary c l r => Text.apply "Binary" [c.spelling, l.spelling, r.spelling]

end Formula

namespace ClauseSet

def spelling : ClauseSet → String
  | const b => Text.apply "Const" [Text.spellBool b]
  | clauses cs =>
    Text.apply "Clauses"
      [Text.braces (cs.toList.map fun c => Text.braces (c.toList.map Literal.text))]

end ClauseSet

namespace Assignment

def spelling (e : Assignment) : String :=
  Text.apply "Assignment"
    [Text.braces (e.pairs.map fun p => p.1.name ++ ": " ++ Text.spellBool p.2)]

end Assignment

end Propositional
