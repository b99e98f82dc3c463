import ConstraintEval.Session
import ConstraintEval.Proofs.Bounds.Soundness
import ConstraintEval.Proofs.Bounds.Exactness
import ConstraintEval.Proofs.Semantics.Completeness
import ConstraintEval.Proofs.SetAlgebra
import ConstraintEval.Proofs.Queries
import ConstraintEval.Proofs.Logic.Basic
import ConstraintEval.Proofs.Logic.Rules
import ConstraintEval.Proofs.Logic.Pending
import ConstraintEval.Proofs.Limits
import ConstraintEval.Proofs.Definitions
import ConstraintEval.Proofs.Acyclic.Models
import ConstraintEval.Proofs.Acyclic.Settling
import ConstraintEval.Proofs.Overloads.Selection
import ConstraintEval.Proofs.Overloads.Registration
import ConstraintEval.Proofs.Extension.Conservative
import ConstraintEval.Proofs.IndexSets
import ConstraintEval.Proofs.VariableDomains
import ConstraintEval.Proofs.Rearrangement
import ConstraintEval.Proofs.Extension.Values
import ConstraintEval.Proofs.Bounds.Monotonicity
import ConstraintEval.Proofs.Bounds.Tightening
import ConstraintEval.Proofs.Bounds.Order
import ConstraintEval.Proofs.AliasChains
import ConstraintEval.Eval.IndexArithmetic
import ConstraintEval.Proofs.ArrayIndexing
import ConstraintEval.Proofs.IndexArithmetic
import ConstraintEval.Proofs.ChainFollowing
import ConstraintEval.Proofs.DeclaredShapes
import ConstraintEval.Proofs.Logic.Apart
import ConstraintEval.Proofs.ElementDomains
import ConstraintEval.Proofs.RepeatedRearrangement
import ConstraintEval.Proofs.Reductions.Chains
import ConstraintEval.Proofs.Reductions.ArrayBounds
import ConstraintEval.Proofs.Failures.Origins
import ConstraintEval.Proofs.SetEquality
import ConstraintEval.Proofs.Overloads.LibraryCalls
import ConstraintEval.Proofs.PendingMoves
import ConstraintEval.Proofs.SettingsRead
import ConstraintEval.Proofs.SeparateRuns
import ConstraintEval.Proofs.ElementTypes
import ConstraintEval.Proofs.SetTexts
import ConstraintEval.Proofs.Interning
