import Prose.Diagnostic
import Prose.Log.Timestamp
import Prose.Options.Json
import Prose.Parser
import Prose.Stmt.Json
import Prose.Proofs.Expr.Alone
import Prose.Proofs.Expr.Ambiguity
import Prose.Proofs.Session.Calls
import Prose.Proofs.Program
import Prose.Proofs.Stmt.RoundTrip
import Prose.Proofs.Expr.Mirror
import Prose.Proofs.Stmt.Relocation
import Prose.Proofs.Stmt.Mirror
import Prose.Proofs.Segment.Partition
import Prose.Proofs.Segment.Relocation
import Prose.Proofs.Block.Parallel
import Prose.Proofs.Segment.Boundary
import Prose.Proofs.Segment.Sentences
import Prose.Proofs.Block.Composition
import Prose.Proofs.Stmt.Place
import Prose.Proofs.Block.Units
import Prose.Proofs.Condense
import Prose.Proofs.Block.Levels
import Prose.Proofs.Expr.Bounded
import Prose.Proofs.Session.History
import Prose.Proofs.Segment.Chain
import Prose.Proofs.Block.Onward
import Prose.Proofs.Block.Conditional
import Prose.Proofs.Condense.Idempotent
import Prose.Proofs.Token.Layout
import Prose.Proofs.Token.Shapes
import Prose.Proofs.Segment.Body
import Prose.Proofs.Block.Body
import Prose.Proofs.Session.Quiet
import Prose.Proofs.Session.Deliveries
import Prose.Proofs.Blame
import Prose.Proofs.Condense.Account
import Prose.Proofs.Expr.OperatorChain
import Prose.Proofs.Expr.Parens
import Prose.Proofs.Expr.PhraseTree
import Prose.Proofs.Stmt.Ambiguity
import Prose.Proofs.Document
import Prose.Proofs.Block.Segmentation
import Prose.Proofs.Block.Terminators
import Prose.Proofs.Number.Name
import Prose.Proofs.Number.Scale
import Prose.Proofs.Number.Fraction
import Prose.Proofs.Number.Digits
import Prose.Proofs.Block.ChainFaults
import Prose.Proofs.Token.Lines
import Prose.Proofs.Token.Rendering
import Prose.Proofs.Token.Escapes
import Prose.Proofs.Condense.Sentences
import Prose.Proofs.Slice.Region
import Prose.Proofs.Places
import Prose.Proofs.NodePlaces
import Prose.Proofs.Expr.Pretty
import Prose.Proofs.Grammar
import Prose.Proofs.Session.Completions
import Prose.Proofs.Slice.Search
import Prose.Proofs.Slice.Split
import Prose.Proofs.Number.Word
