import Backtrack.Bytes
import Backtrack.CString
import Backtrack.Code.Basic
import Backtrack.Code.Text
import Backtrack.Constants
import Backtrack.Diagnostic
import Backtrack.Functions
import Backtrack.Generate.Basic
import Backtrack.Generate.Expr
import Backtrack.Generate.Rule
import Backtrack.Grammar.Basic
import Backtrack.Grammar.ClassBytes
import Backtrack.Grammar.ClassText
import Backtrack.Grammar.Format.Basic
import Backtrack.Grammar.Format.Document
import Backtrack.Grammar.Format.Node
import Backtrack.Grammar.LoadError
import Backtrack.Grammar.Record
import Backtrack.Interner
import Backtrack.Json.Basic
import Backtrack.Json.Document
import Backtrack.Json.Double
import Backtrack.Json.Number
import Backtrack.Json.Printer
import Backtrack.Json.Token
import Backtrack.Lines
import Backtrack.OrderedMap
import Backtrack.Output
import Backtrack.Parser.EntryPoint
import Backtrack.Parser.Files
import Backtrack.Parser.Section
import Backtrack.Parser.StartRule
import Backtrack.Scope
import Backtrack.Slots
import Backtrack.Proofs.Maps.Insertion
import Backtrack.Proofs.Generation.Ensures
import Backtrack.Proofs.Generation.ClosedForm
import Backtrack.Proofs.Generation.Emission
import Backtrack.Proofs.Generation.Discipline
import Backtrack.Proofs.Listing.Words
import Backtrack.Proofs.Listing.Plain
import Backtrack.Proofs.Listing.Lines
import Backtrack.Proofs.Listing.Functions
import Backtrack.Proofs.Execution.Machine
import Backtrack.Proofs.Execution.Attempt
import Backtrack.Proofs.Execution.Following
import Backtrack.Proofs.Execution.Simulation
import Backtrack.Proofs.Execution.Parsing
import Backtrack.Proofs.Execution.Preservation
import Backtrack.Proofs.Labels.Placement
import Backtrack.Proofs.Labels.Arguments
import Backtrack.Proofs.Assignment.Paths
import Backtrack.Proofs.Assignment.Traces
import Backtrack.Proofs.Assignment.Rows
import Backtrack.Proofs.Assignment.Definite
import Backtrack.Proofs.Generation.Growth
import Backtrack.Proofs.Generation.Returns
import Backtrack.Proofs.Generation.Traversal
import Backtrack.Proofs.Warnings.Agreement
import Backtrack.Proofs.Warnings.Leaves
import Backtrack.Proofs.Layout.Namespaces
import Backtrack.Proofs.Layout.SplitShared
import Backtrack.Proofs.Ownership.Heap
import Backtrack.Proofs.Ownership.Runs
import Backtrack.Proofs.Ownership.Accounts
import Backtrack.Proofs.Ownership.Conservation
import Backtrack.Proofs.References.Resolution
import Backtrack.Proofs.Json.Values
import Backtrack.Proofs.Loading.Format
import Backtrack.Proofs.Loading.Records
import Backtrack.Proofs.Loading.Decoding
import Backtrack.Proofs.Loading.Nodes
import Backtrack.Proofs.Loading.Documents
import Backtrack.Proofs.Loading.Likeness
import Backtrack.Proofs.Loading.Acceptance
import Backtrack.Proofs.Loading.Paths
import Backtrack.Proofs.Json.Written
import Backtrack.Proofs.Loading.RoundTrip
import Backtrack.Proofs.StartRules.Search
import Backtrack.Proofs.Strings.Escaping
import Backtrack.Proofs.Sessions.Repetition
import Backtrack.Proofs.Constants.Identity
import Backtrack.Proofs.Execution.Visits
import Backtrack.Proofs.Execution.UserCalls
import Backtrack.Proofs.Locals.Uses
import Backtrack.Proofs.Locals.Extent
import Backtrack.Proofs.Locals.Peaks
import Backtrack.Proofs.Locals.Declarations
import Backtrack.Proofs.Strings.Scanning
import Backtrack.Proofs.Constants.Classes
import Backtrack.Proofs.Labels.Scoping
import Backtrack.Proofs.Layout.SpaceOrder
import Backtrack.Proofs.Layout.Bracketing
import Backtrack.Proofs.References.Rules
import Backtrack.Proofs.Layout.Indentation
import Backtrack.Proofs.Strings.ClassNotation
import Backtrack.Proofs.Locals.StackRuns
import Backtrack.Proofs.Relocation.Shift
import Backtrack.Proofs.Relocation.Moves
