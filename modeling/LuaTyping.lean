import LuaTyping.Main
import LuaTyping.Syntax.Element
import LuaTyping.Proofs.Application
import LuaTyping.Proofs.Computation
import LuaTyping.Proofs.Resolution
import LuaTyping.Proofs.Within
import LuaTyping.Proofs.Unification
import LuaTyping.Proofs.Operations
import LuaTyping.Proofs.ExpressionRules
import LuaTyping.Proofs.StatementRules
import LuaTyping.Proofs.Freshness
import LuaTyping.Proofs.FaultKinds
import LuaTyping.Proofs.Deepening
import LuaTyping.Proofs.Termination
import LuaTyping.Proofs.Admission
import LuaTyping.Proofs.ReturnCoverage
import LuaTyping.Proofs.Scopeless
import LuaTyping.Proofs.Confinement
import LuaTyping.Proofs.FreshRuns
import LuaTyping.Proofs.ScopeLeaks
import LuaTyping.Proofs.KindKeeping
import LuaTyping.Proofs.UnboundNames
import LuaTyping.Proofs.SchemeInstances
import LuaTyping.Proofs.GlobalTypes
import LuaTyping.Proofs.Renaming
import LuaTyping.Proofs.Mirroring
import LuaTyping.Proofs.RenamedSessions
import LuaTyping.Proofs.RenamedExpressions
import LuaTyping.Proofs.NameChoice
import LuaTyping.Proofs.Acceptance
import LuaTyping.Proofs.Printing
import LuaTyping.Proofs.LastBinding
import LuaTyping.Proofs.TypeTests
import LuaTyping.Proofs.Scalars
import LuaTyping.Proofs.Conditions
import LuaTyping.Proofs.BranchNarrowing
import LuaTyping.Proofs.Records
import LuaTyping.Proofs.PathTests
import LuaTyping.Proofs.PathNarrowing
import LuaTyping.Proofs.OwnScopes
import LuaTyping.Proofs.BooleanConditions
import LuaTyping.Proofs.Circles
import LuaTyping.Proofs.Unfolding
import LuaTyping.Proofs.KeyPaths
import LuaTyping.Proofs.NestedAssignments
import LuaTyping.Proofs.ClosedReading
import LuaTyping.Proofs.FieldAssignments
import LuaTyping.Proofs.EmptyReturns
import LuaTyping.Proofs.SilentBranches
import LuaTyping.Proofs.UpperBounds
import LuaTyping.Proofs.LowerBounds
import LuaTyping.Proofs.Remainders
import LuaTyping.Proofs.TableConstructors
import LuaTyping.Proofs.SeparateKeys
import LuaTyping.Proofs.Arguments
import LuaTyping.Proofs.Arity
import LuaTyping.Proofs.TableLengths
import LuaTyping.Proofs.AnnotatedNames
import LuaTyping.Proofs.VariableResults
import LuaTyping.Proofs.Broadening
import LuaTyping.Proofs.FoundBindings
import LuaTyping.Proofs.Overlap
import LuaTyping.Proofs.Grouping
import LuaTyping.Proofs.ShownNames
