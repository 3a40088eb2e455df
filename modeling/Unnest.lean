import Unnest.Data.OrderedSet
import Unnest.Symbol
import Unnest.TypeName
import Unnest.Syntax.Basic
import Unnest.Syntax.Node
import Unnest.Syntax.Outline
import Unnest.Failure
import Unnest.Report
import Unnest.Graph.Basic
import Unnest.Graph.Nesting
import Unnest.Graph.Text
import Unnest.Graph.Draft
import Unnest.Graph.Scoping
import Unnest.Captures.Collect
import Unnest.Captures.Propagate
import Unnest.Environments.Allocate
import Unnest.Environments.Host
import Unnest.Environments.Prune
import Unnest.Declarations.Basic
import Unnest.Declarations.Make
import Unnest.Declarations.Verify
import Unnest.Lowered.Frame
import Unnest.Lowered.Tree
import Unnest.Syntax.Variables
import Unnest.Conversion
import Unnest.Workbench
import Unnest.Converter
import Unnest.Batch
import Unnest.Proofs.Syntax.Sites
import Unnest.Proofs.Syntax.Numbering
import Unnest.Proofs.Syntax.Outlines
import Unnest.Proofs.Syntax.Skeletons
import Unnest.Proofs.Graph.Basic
import Unnest.Proofs.Graph.Walk
import Unnest.Proofs.Graph.Layout
import Unnest.Proofs.Graph.Building
import Unnest.Proofs.Graph.Body
import Unnest.Proofs.Graph.Forest
import Unnest.Proofs.Graph.Paths
import Unnest.Proofs.Captures.Collect
import Unnest.Proofs.Captures.Propagate
import Unnest.Proofs.Captures.Exact
import Unnest.Proofs.Captures.Nesting
import Unnest.Proofs.Environments.Allocate
import Unnest.Proofs.Environments.Host
import Unnest.Proofs.Environments.Seated
import Unnest.Proofs.Environments.Chain
import Unnest.Proofs.Environments.Allotted
import Unnest.Proofs.Environments.Marked
import Unnest.Proofs.Declarations.Types
import Unnest.Proofs.Declarations.Methods
import Unnest.Proofs.Checked
import Unnest.Proofs.Lowered.Reach
import Unnest.Proofs.Lowered.Climb
import Unnest.Proofs.Lowered.Relation
import Unnest.Proofs.Lowered.Run
import Unnest.Proofs.Lowered.Sound
import Unnest.Proofs.Lowered.Rules
import Unnest.Proofs.Lowered.Referents
import Unnest.Proofs.Lowered.Frames
import Unnest.Proofs.Lowered.Tallies
import Unnest.Proofs.Lowered.Blocks
import Unnest.Proofs.Lowered.Values
import Unnest.Proofs.Conversion
import Unnest.Proofs.Receiver
import Unnest.Proofs.Calls
import Unnest.Proofs.Hoisting
import Unnest.Proofs.Batch
import Unnest.Proofs.Semantics.Store
import Unnest.Proofs.Semantics.Evaluate
import Unnest.Proofs.Captures.Order
import Unnest.Proofs.Lowered.Settled
import Unnest.Proofs.Captures.Acceptance
import Unnest.Proofs.Captures.Closed
import Unnest.Proofs.Lowered.Declared
import Unnest.Proofs.Lowered.Closed
import Unnest.Proofs.Standalone
import Unnest.Proofs.Semantics.Layout
import Unnest.Proofs.Semantics.Matching
import Unnest.Proofs.Semantics.Ways
import Unnest.Proofs.Semantics.Entering
import Unnest.Proofs.Semantics.Creating
import Unnest.Proofs.Semantics.Simulation
import Unnest.Proofs.Semantics.Expressions
import Unnest.Proofs.Semantics.Blocks
import Unnest.Proofs.Semantics.Statements
import Unnest.Proofs.Semantics.Preservation
import Unnest.Proofs.Captures.Rounds
import Unnest.Proofs.Captures.Least
import Unnest.Proofs.Captures.Contract
import Unnest.Proofs.Captures.Strays
import Unnest.Proofs.Bypass
import Unnest.Proofs.Names.Graph
import Unnest.Proofs.Names.Analysis
import Unnest.Proofs.Names.Declarations
import Unnest.Proofs.Names.Frame
import Unnest.Proofs.Names.Lowering
import Unnest.Proofs.Environments.Dispensable
import Unnest.Proofs.Graph.Chart
import Unnest.Proofs.Creation
import Unnest.Proofs.Declarations.Identifiers
import Unnest.Proofs.Declarations.Pieces
import Unnest.Proofs.Declarations.Distinct
import Unnest.Proofs.Spelling
import Unnest.Proofs.Lowered.Trails
import Unnest.Proofs.Naming
import Unnest.Proofs.NamedReceiver.Graph
import Unnest.Proofs.NamedReceiver.Analysis
import Unnest.Proofs.NamedReceiver.Lowering
import Unnest.Proofs.NamedReceiver.Places
import Unnest.Proofs.NamedReceiver
