import Propositional.Formula.Order
import Propositional.Formula.Walk
import Propositional.ClauseSet.Evaluation
import Propositional.Proofs.Formula.Session
import Propositional.Proofs.Formula.Simplification
import Propositional.Proofs.Formula.Substitution
import Propositional.Proofs.NormalForm.Meaning
import Propositional.Proofs.NormalForm.Construction
import Propositional.Proofs.NormalForm.Partition
import Propositional.Proofs.NormalForm.Expansion
import Propositional.Proofs.NormalForm.Duality
import Propositional.Proofs.NormalForm.Counting
import Propositional.Proofs.NormalForm.Renaming
import Propositional.Proofs.NormalForm.Decomposition
import Propositional.Proofs.UnitPropagation.Closure
import Propositional.Proofs.UnitPropagation.FixedPoints
import Propositional.Proofs.UnitPropagation.Chronicle
import Propositional.Proofs.UnitPropagation.Equivariance
import Propositional.Proofs.NormalForm.ExpansionLog
import Propositional.Proofs.Formula.Elimination
import Propositional.Proofs.ClauseSet.Rebuilding
import Propositional.Proofs.Formula.Rebuilding
import Propositional.Proofs.ClauseSet.Nesting
import Propositional.Proofs.NormalForm.Rebuilding
import Propositional.Proofs.Formula.Text
import Propositional.Proofs.ClauseSet.Text
import Propositional.Proofs.Formula.Traversal
import Propositional.Proofs.Formula.Occurrences
import Propositional.Proofs.Formula.Negation
import Propositional.Proofs.Assignment.BinaryOrder
