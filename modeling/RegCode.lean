import RegCode.Access
import RegCode.Assembly.Body
import RegCode.Assembly.Fault
import RegCode.Assembly.Line
import RegCode.Assembly.Literal
import RegCode.Assembly.Reader
import RegCode.Block
import RegCode.Browser
import RegCode.Cache
import RegCode.Chains
import RegCode.Chains.Declaration
import RegCode.Chains.Propagation
import RegCode.Command
import RegCode.Command.FileTree
import RegCode.Command.Host
import RegCode.Command.Options
import RegCode.Config
import RegCode.Config.Reader
import RegCode.Decimal
import RegCode.Decompile
import RegCode.Descriptor
import RegCode.Diagnostic
import RegCode.Digest.Blake2b
import RegCode.Expr
import RegCode.Expr.Fold
import RegCode.Flow.Build
import RegCode.Flow.Dominators
import RegCode.Flow.Graph
import RegCode.Flow.Simplify
import RegCode.Image
import RegCode.Instruction
import RegCode.Json
import RegCode.Json.Reader
import RegCode.Json.Shape
import RegCode.Layout
import RegCode.Layout.Code
import RegCode.Layout.Line
import RegCode.Lower
import RegCode.Main
import RegCode.Message
import RegCode.Method
import RegCode.Mnemonic
import RegCode.Operation
import RegCode.Profile
import RegCode.Recovery
import RegCode.Recovery.Plan
import RegCode.Recovery.Policy
import RegCode.Service
import RegCode.Service.Document
import RegCode.Service.Params
import RegCode.Service.Wire
import RegCode.Sorting
import RegCode.Stmt
import RegCode.Stmt.Constructor
import RegCode.Stmt.Sharing
import RegCode.Table
import RegCode.Terminal
import RegCode.Text.Cut
import RegCode.Text.Distance
import RegCode.Text.Lowercase
import RegCode.Text.Numeral
import RegCode.Text.Printable
import RegCode.Text.Quoted
import RegCode.Text.Utf8
import RegCode.Toml
import RegCode.Toml.Keys
import RegCode.Toml.Reader
import RegCode.Toml.Scalar
import RegCode.Tree
import RegCode.Tree.Dump
import RegCode.TryTable
import RegCode.Variable
import RegCode.Verify
import RegCode.Workspace
import RegCode.Workspace.Report
import RegCode.Proofs.Assembly.Formed
import RegCode.Proofs.Cache.Bare
import RegCode.Proofs.Cache.Operands
import RegCode.Proofs.Cache.Settings
import RegCode.Proofs.Cache.Transparent
import RegCode.Proofs.Chains.Restating
import RegCode.Proofs.Chains.Substitution
import RegCode.Proofs.Chains.Thinning
import RegCode.Proofs.Chains.Unread
import RegCode.Proofs.Dominance.Exact
import RegCode.Proofs.Dominance.Loops
import RegCode.Proofs.Dominance.Tree
import RegCode.Proofs.Expr.Values
import RegCode.Proofs.Flow.Blocks
import RegCode.Proofs.Flow.Coherence
import RegCode.Proofs.Flow.Construction
import RegCode.Proofs.Flow.Drawing
import RegCode.Proofs.Flow.Edits
import RegCode.Proofs.Flow.Entrance
import RegCode.Proofs.Flow.Executing
import RegCode.Proofs.Flow.Finishing
import RegCode.Proofs.Flow.Variables
import RegCode.Proofs.Flow.Folding
import RegCode.Proofs.Flow.Lowering
import RegCode.Proofs.Flow.Mirroring
import RegCode.Proofs.Flow.Numbering
import RegCode.Proofs.Flow.Spacing
import RegCode.Proofs.Flow.Splitting
import RegCode.Proofs.Descriptor.Grammar
import RegCode.Proofs.Flow.Failing
import RegCode.Proofs.Flow.Path
import RegCode.Proofs.Flow.Ranges
import RegCode.Proofs.Flow.Rendering
import RegCode.Proofs.Flow.Representation
import RegCode.Proofs.Flow.Search
import RegCode.Proofs.Flow.Shape
import RegCode.Proofs.Flow.Shielding
import RegCode.Proofs.Flow.Spreading
import RegCode.Proofs.Layout.Stored
import RegCode.Proofs.Reaching.Chains
import RegCode.Proofs.Reaching.Exact
import RegCode.Proofs.Reaching.Links
import RegCode.Proofs.Reaching.Transfer
import RegCode.Proofs.Recovery.Bound
import RegCode.Proofs.Recovery.Cleaning
import RegCode.Proofs.Recovery.Writing
import RegCode.Proofs.Recovery.Complete
import RegCode.Proofs.Recovery.Coverage
import RegCode.Proofs.Recovery.Covering
import RegCode.Proofs.Recovery.Dispatch
import RegCode.Proofs.Recovery.Execution
import RegCode.Proofs.Recovery.Labels
import RegCode.Proofs.Recovery.Listing
import RegCode.Proofs.Recovery.Once
import RegCode.Proofs.Recovery.Order
import RegCode.Proofs.Recovery.Orderly
import RegCode.Proofs.Recovery.Places
import RegCode.Proofs.Recovery.Protection
import RegCode.Proofs.Recovery.Scopes
import RegCode.Proofs.Recovery.Skipping
import RegCode.Proofs.Recovery.Standing
import RegCode.Proofs.Recovery.Strokes
import RegCode.Proofs.Recovery.Running
import RegCode.Proofs.Text.Bytes
import RegCode.Proofs.Text.Nearest
import RegCode.Proofs.Text.Numerals
import RegCode.Proofs.Text.Quoting
import RegCode.Proofs.Chains.Editing
import RegCode.Proofs.Chains.Maintenance
import RegCode.Proofs.Assembly.Printing
import RegCode.Proofs.Assembly.Reassembly
import RegCode.Proofs.Assembly.Binding
import RegCode.Proofs.Assembly.Bounds
import RegCode.Proofs.Workspace.Showing
import RegCode.Proofs.Chains.Ordering
import RegCode.Proofs.Recovery.Declaring
import RegCode.Proofs.Recovery.Visible
import RegCode.Proofs.Chains.Sweeping
import RegCode.Proofs.Chains.Spending
import RegCode.Proofs.Chains.Lifetimes
import RegCode.Proofs.Chains.Placing
import RegCode.Proofs.Chains.Hoisting
import RegCode.Proofs.Flow.Normalizing
import RegCode.Proofs.Flow.Cutting
import RegCode.Proofs.Stmt.Objects
import RegCode.Proofs.Stmt.Constructing
import RegCode.Proofs.Stmt.Sharing
import RegCode.Proofs.Flow.Closing
import RegCode.Proofs.Recovery.Catching
import RegCode.Proofs.Assembly.Keeping
import RegCode.Proofs.Assembly.Lines
import RegCode.Proofs.Text.OneLine
import RegCode.Proofs.Expr.Lines
import RegCode.Proofs.Chains.Lines
import RegCode.Proofs.Flow.Lines
import RegCode.Proofs.Recovery.Lines
import RegCode.Proofs.Layout.Cached
import RegCode.Proofs.Flow.Registers
import RegCode.Proofs.Expr.Substituting
import RegCode.Proofs.Flow.Naming
import RegCode.Proofs.Tree.Jumping
