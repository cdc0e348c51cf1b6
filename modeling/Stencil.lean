import Stencil.Body.Basic
import Stencil.Body.Eval
import Stencil.Body.Replicate
import Stencil.Body.Splice
import Stencil.Box
import Stencil.CommandLine.Arguments
import Stencil.CommandLine.Disk
import Stencil.CommandLine.Files
import Stencil.CommandLine.Path
import Stencil.CommandLine.Run
import Stencil.Decl.Basic
import Stencil.Decl.Grammar
import Stencil.Decl.Parser
import Stencil.Decl.Terminal
import Stencil.Diagnostic
import Stencil.Digest.Sha256
import Stencil.Drawing
import Stencil.Evaluation
import Stencil.Failure
import Stencil.Func.Basic
import Stencil.Func.Structure
import Stencil.Graph
import Stencil.Grid
import Stencil.Inference
import Stencil.Inlining
import Stencil.Json.Basic
import Stencil.Json.Decode
import Stencil.Json.Number
import Stencil.Json.Options
import Stencil.Json.Program
import Stencil.Json.Reader
import Stencil.Json.Writer
import Stencil.Main
import Stencil.Pass
import Stencil.Pipeline
import Stencil.Primitives
import Stencil.Printer
import Stencil.Proofs.Acceptance
import Stencil.Proofs.Agreement
import Stencil.Proofs.Annotations
import Stencil.Proofs.Body
import Stencil.Proofs.Bounds
import Stencil.Proofs.Box
import Stencil.Proofs.Candidate
import Stencil.Proofs.Closure
import Stencil.Proofs.Commutation
import Stencil.Proofs.Compaction
import Stencil.Proofs.Computation
import Stencil.Proofs.Confluence
import Stencil.Proofs.Coordinates
import Stencil.Proofs.Coverage
import Stencil.Proofs.Cycles
import Stencil.Proofs.Decimal
import Stencil.Proofs.Declaring
import Stencil.Proofs.Demand
import Stencil.Proofs.Domains
import Stencil.Proofs.Elimination
import Stencil.Proofs.Enumeration
import Stencil.Proofs.Evaluation
import Stencil.Proofs.Events
import Stencil.Proofs.Exhaustion
import Stencil.Proofs.Fingerprint
import Stencil.Proofs.Freshness
import Stencil.Proofs.Func
import Stencil.Proofs.Grammar
import Stencil.Proofs.Grid
import Stencil.Proofs.Growth
import Stencil.Proofs.Idempotence
import Stencil.Proofs.Indexing
import Stencil.Proofs.Inference
import Stencil.Proofs.Inlining
import Stencil.Proofs.JsonText
import Stencil.Proofs.Lattice
import Stencil.Proofs.Lexing
import Stencil.Proofs.Lifting
import Stencil.Proofs.Literal
import Stencil.Proofs.Loading
import Stencil.Proofs.Locality
import Stencil.Proofs.Lookahead
import Stencil.Proofs.Lookups
import Stencil.Proofs.Machine
import Stencil.Proofs.Merge
import Stencil.Proofs.Naming
import Stencil.Proofs.Numbering
import Stencil.Proofs.Numeral
import Stencil.Proofs.Obligations
import Stencil.Proofs.Odometer
import Stencil.Proofs.Order
import Stencil.Proofs.Overflow
import Stencil.Proofs.Parsing
import Stencil.Proofs.Patterns
import Stencil.Proofs.Performing
import Stencil.Proofs.Pipeline
import Stencil.Proofs.Placing
import Stencil.Proofs.Plan
import Stencil.Proofs.Planning
import Stencil.Proofs.Printing
import Stencil.Proofs.Reachability
import Stencil.Proofs.Reading
import Stencil.Proofs.Rebuilding
import Stencil.Proofs.Refinement
import Stencil.Proofs.Reload
import Stencil.Proofs.Rendering
import Stencil.Proofs.Replication
import Stencil.Proofs.Resolving
import Stencil.Proofs.Respelling
import Stencil.Proofs.RoundTrip
import Stencil.Proofs.Rounding
import Stencil.Proofs.Segmentation
import Stencil.Proofs.Solution
import Stencil.Proofs.Soundness
import Stencil.Proofs.Spelling
import Stencil.Proofs.Splicing
import Stencil.Proofs.Tightness
import Stencil.Proofs.Tiling
import Stencil.Proofs.Total
import Stencil.Proofs.Unambiguous
import Stencil.Proofs.Unrolling
import Stencil.Proofs.Validity
import Stencil.Region
import Stencil.Resolution
import Stencil.Scalar.Basic
import Stencil.Scalar.Layout
import Stencil.Scalar.Operators
import Stencil.Scalar.Root
import Stencil.Scalar.Shortest
import Stencil.Shape
import Stencil.Text.Escaped
import Stencil.Text.Numeral
import Stencil.Text.Quoted
import Stencil.Token.Basic
import Stencil.Token.Lexer
import Stencil.Unrolling
import Stencil.Verification
