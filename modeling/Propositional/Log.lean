import Propositional.NormalForm
import Propositional.Text.Constructors

/-!
# The log of conversion and propagation

Converting a formula reports each expanded variable with its depth and, at the
end, the number of clauses; a conversion that is asked for by the name of its
reading first opens a span that shows the formula as it was given. Unit
propagation reports every round with the number of clauses before and after
it, or the reason for which the set collapsed. A log is read off the expansion
and off the run, so it holds what the results were computed from.
-/

set_option autoImplicit false

namespace Propositional

inductive Level where
  | debug
  | trace
  deriving DecidableEq

inductive Event where
  | opened (r : Reading) (f : Formula)
  | pivot (depth : Nat) (v : Variable)
  | converted (r : Reading) (clauses : Nat)
  | absorbed (round before after : Nat)
  | collapsed (round : Nat) (reason : Collapse) (fallback : Bool)
  deriving DecidableEq

namespace UnitPropagation.Run

def events (fallback : Bool) (round : Nat) : Run → List Event
  | collapsed reason => [.collapsed round reason fallback]
  | settled before after => [.absorbed round before.size after.size]
  | absorbed before after rest =>
    .absorbed round before.size after.size :: rest.events fallback (round + 1)

end UnitPropagation.Run

namespace ClauseSet

def optimizeLog (s : ClauseSet) (fallback recursive : Bool) : List Event :=
  match s with
  | const _ => []
  | clauses cs => (UnitPropagation.run recursive cs).events fallback 0

end ClauseSet

namespace Formula

def normalFormLog (f : Formula) (r : Reading) : List Event :=
  (f.canonicalize.expand r 0).1.map (fun p => .pivot p.1 p.2) ++
    [.converted r (f.normalForm r).clauseCount]

def conversionLog (f : Formula) (r : Reading) : List Event :=
  .opened r f :: f.normalFormLog r

def minimalFormLog (f : Formula) (r : Reading) : List Event :=
  f.conversionLog r ++ (f.normalForm r).optimizeLog r.absorbing true

end Formula

inductive Field where
  | text (s : String)
  | number (n : Nat)
  deriving DecidableEq

namespace Level

def text : Level → String
  | debug => "DEBUG"
  | trace => "TRACE"

end Level

namespace Event

def level : Event → Level
  | opened .. => .debug
  | pivot .. => .trace
  | converted .. => .debug
  | absorbed .. => .trace
  | collapsed .. => .debug

def message : Event → String
  | opened .conjunctive _ => "span to_cnf"
  | opened .disjunctive _ => "span to_dnf"
  | pivot .. => "pivot"
  | converted .. => "converted"
  | absorbed .. => "absorbed unit clauses"
  | collapsed .. => "clause set collapsed"

def fields : Event → List (String × Field)
  | opened _ f => [("form", .text f.text)]
  | pivot depth v => [("depth", .number depth), ("var", .text v.name)]
  | converted r clauses => [("clauses", .number clauses), ("nf", .text r.spelling)]
  | absorbed round before after =>
    [("after", .number after), ("before", .number before), ("round", .number round)]
  | collapsed round reason fallback =>
    [("default", .text (Text.ofBool fallback)), ("reason", .text reason.text),
      ("round", .number round)]

end Event

end Propositional
