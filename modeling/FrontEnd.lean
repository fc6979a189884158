import FrontEnd.Fault
import FrontEnd.RecordId
import FrontEnd.Table
import FrontEnd.Arena
import FrontEnd.Source.Span
import FrontEnd.Source.LineTable
import FrontEnd.Decimal.Style
import FrontEnd.Program.Scope
import FrontEnd.Program.Outline
import FrontEnd.Program.TypeOf
import FrontEnd.Program.Layout
import FrontEnd.Builder.Step
import FrontEnd.Diagnostic.Queue
import FrontEnd.Diagnostic.InternalError
import FrontEnd.Analysis.Compile
import FrontEnd.Proofs.Frame
import FrontEnd.Proofs.Declaring
import FrontEnd.Proofs.Lexical
import FrontEnd.Proofs.Scopes
import FrontEnd.Proofs.Nesting
import FrontEnd.Proofs.Regular
import FrontEnd.Proofs.NameBinding
import FrontEnd.Proofs.NamePass
import FrontEnd.Proofs.NameWalk
import FrontEnd.Proofs.NameResolution
import FrontEnd.Proofs.Extension
import FrontEnd.Proofs.Growing
import FrontEnd.Proofs.Building
import FrontEnd.Proofs.Steps
import FrontEnd.Proofs.Built
import FrontEnd.Proofs.NameSuccess
import FrontEnd.Proofs.TypeDependence
import FrontEnd.Proofs.Reports
import FrontEnd.Proofs.Changes
import FrontEnd.Proofs.TypedExpr
import FrontEnd.Proofs.Tasks
import FrontEnd.Proofs.StmtTasks
import FrontEnd.Proofs.TaskRuns
import FrontEnd.Proofs.Order
import FrontEnd.Proofs.TypeWalk
import FrontEnd.Proofs.ReadOrder
import FrontEnd.Proofs.Flags
import FrontEnd.Proofs.Globals
import FrontEnd.Proofs.Rounds
import FrontEnd.Proofs.Unsettling
import FrontEnd.Proofs.Cycles
import FrontEnd.Proofs.TopLevel
import FrontEnd.Proofs.TypePass
import FrontEnd.Proofs.Resolved
import FrontEnd.Proofs.TypeEquations
import FrontEnd.Proofs.TasksAgain
import FrontEnd.Proofs.GlobalsAgain
import FrontEnd.Proofs.TypePassAgain
import FrontEnd.Proofs.NamesAgain
import FrontEnd.Proofs.LayoutAgain
import FrontEnd.Proofs.Complaints
import FrontEnd.Proofs.Reruns
import FrontEnd.Proofs.Positions
import FrontEnd.Proofs.Told
import FrontEnd.Proofs.InitOrder
import FrontEnd.Proofs.Objections
import FrontEnd.Proofs.Justified
import FrontEnd.Proofs.Reported
import FrontEnd.Proofs.Placement
import FrontEnd.Proofs.Checks
import FrontEnd.Proofs.Answers
import FrontEnd.Proofs.Sound
import FrontEnd.Proofs.NameSafety
import FrontEnd.Proofs.TypeSafety
import FrontEnd.Proofs.CheckSafety
import FrontEnd.Proofs.Safety
import FrontEnd.Proofs.Stock
import FrontEnd.Proofs.BuiltSafety
import FrontEnd.Proofs.PackedTables
import FrontEnd.Proofs.ScopeTree
import FrontEnd.Proofs.Script
import FrontEnd.Proofs.ReadBack
import FrontEnd.Proofs.Agree
import FrontEnd.Proofs.Kin
import FrontEnd.Proofs.KinExpr
import FrontEnd.Proofs.KinSignatures
import FrontEnd.Proofs.Lockstep
import FrontEnd.Proofs.Resumption
import FrontEnd.Proofs.WellNested
import FrontEnd.Proofs.Renaming
import FrontEnd.Proofs.RenamedTypes
import FrontEnd.Proofs.BucketedList
import FrontEnd.Proofs.Ledger
import FrontEnd.Proofs.LeadsTo
import FrontEnd.Proofs.KeptReports
import FrontEnd.Proofs.NameEdits
import FrontEnd.Proofs.TypeEdits
import FrontEnd.Proofs.FilledIn
import FrontEnd.Proofs.ValidAgain
import FrontEnd.Proofs.VariableOrder
import FrontEnd.Proofs.Unset
import FrontEnd.Proofs.GivenTypes
import FrontEnd.Proofs.CleanCompile
import FrontEnd.Proofs.Arithmetic
import FrontEnd.Proofs.EnumSlices
import FrontEnd.Proofs.Valueless
import FrontEnd.Proofs.Silence
import FrontEnd.Proofs.Refusals
import FrontEnd.Proofs.BlockWalks
import FrontEnd.Proofs.ScopeWalk
import FrontEnd.Proofs.ScopeMirror
import FrontEnd.Proofs.LinesAndColumns
import FrontEnd.Proofs.Offers
import FrontEnd.Proofs.SpanReads
import FrontEnd.Proofs.Words
import FrontEnd.Proofs.EnumHints
import FrontEnd.Proofs.EnumNaming
