import FrontEnd.Grammar.Closure
import FrontEnd.Grammar.Equations
import FrontEnd.Tree.Arrow
import FrontEnd.Tree.Display
import FrontEnd.Tree.Equality
import FrontEnd.Proofs.Grammar.Derivation
import FrontEnd.Proofs.Grammar.Passage
import FrontEnd.Proofs.Grammar.Soundness
import FrontEnd.Proofs.Grammar.Leaves
import FrontEnd.Proofs.Grammar.Accounting
import FrontEnd.Proofs.Reading.Decoding
import FrontEnd.Proofs.Reading.Delivery
import FrontEnd.Proofs.Reading.Checked
import FrontEnd.Proofs.Reading.Chunks
import FrontEnd.Proofs.Lexing.Partition
import FrontEnd.Proofs.Grammar.Completeness
import FrontEnd.Proofs.Reading.Pieces
import FrontEnd.Proofs.Reading.Reference
import FrontEnd.Proofs.Reading.Segment
import FrontEnd.Proofs.Tree.Relocate
import FrontEnd.Proofs.Tree.Shape
import FrontEnd.Proofs.Lexing.Words
import FrontEnd.Proofs.Surface.Syntax
import FrontEnd.Proofs.Surface.Derivation
import FrontEnd.Proofs.Surface.RoundTrip
import FrontEnd.Proofs.Lexing.Order
import FrontEnd.Proofs.Tree.Node
import FrontEnd.Proofs.Grammar.Locations
import FrontEnd.Proofs.Grammar.Locality
import FrontEnd.Proofs.Lexing.Lookahead
import FrontEnd.Proofs.Lexing.Sharing
import FrontEnd.Proofs.Lexing.Joining
import FrontEnd.Proofs.Grammar.Concatenation
import FrontEnd.Proofs.Grammar.EarliestError
import FrontEnd.Proofs.Grammar.Completion
import FrontEnd.Proofs.Lexing.Newlines
import FrontEnd.Proofs.Lexing.LineStarts
import FrontEnd.Proofs.Lexing.Spacing
import FrontEnd.Proofs.Literal.Parts
import FrontEnd.Proofs.Literal.Conversion
import FrontEnd.Proofs.Grammar.Literals
import FrontEnd.Proofs.Grammar.Calls
import FrontEnd.Proofs.Grammar.Complaints
import FrontEnd.Proofs.Reading.Failure
import FrontEnd.Proofs.Lexing.Failure
import FrontEnd.Proofs.Grammar.Failure
import FrontEnd.Proofs.Grammar.Blame
import FrontEnd.Proofs.Grammar.Nesting
import FrontEnd.Proofs.Grammar.Termination
import FrontEnd.Proofs.Lexing.LineEndings
import FrontEnd.Proofs.Grammar.LineEndings
import FrontEnd.Proofs.Literal.Separation
import FrontEnd.Proofs.Grammar.Numerals
import FrontEnd.Proofs.Literal.Digits
import FrontEnd.Proofs.Literal.Rendering
import FrontEnd.Proofs.Literal.Misplaced
import FrontEnd.Proofs.Literal.Rejection
import FrontEnd.Proofs.Grammar.Rejection
import FrontEnd.Proofs.Grammar.Introduction
import FrontEnd.Proofs.Grammar.ContextNames
import FrontEnd.Proofs.Lexing.Enclosing
import FrontEnd.Proofs.Lexing.Segments
import FrontEnd.Proofs.Tree.Text
import FrontEnd.Proofs.Grammar.Parentheses
import FrontEnd.Proofs.Double.Value
import FrontEnd.Proofs.Double.Rounding
import FrontEnd.Proofs.Double.Scaling
import FrontEnd.Proofs.Double.Nearest
import FrontEnd.Proofs.Literal.Mantissa
import FrontEnd.Proofs.Literal.HexFloat
import FrontEnd.Proofs.Literal.Exactness
import FrontEnd.Proofs.Literal.Registers
import FrontEnd.Proofs.Double.Shortest
import FrontEnd.Proofs.Double.Text
import FrontEnd.Proofs.Tree.Chains
import FrontEnd.Proofs.Tree.Words
import FrontEnd.Proofs.Tree.Readability
import FrontEnd.Proofs.Grammar.Faithfulness
