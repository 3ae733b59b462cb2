import L20n.Depth
import L20n.Diagnostic
import L20n.Diagnostic.Layout
import L20n.Monitor
import L20n.Node
import L20n.Operator
import L20n.Proofs.Acceptance
import L20n.Proofs.Alike
import L20n.Proofs.Balance
import L20n.Proofs.Boundary
import L20n.Proofs.Calls
import L20n.Proofs.Chains
import L20n.Proofs.Concatenation
import L20n.Proofs.Cursor
import L20n.Proofs.Decoding
import L20n.Proofs.Derived
import L20n.Proofs.Enclosure
import L20n.Proofs.Escapes
import L20n.Proofs.Fails
import L20n.Proofs.FirstFault
import L20n.Proofs.Flaws
import L20n.Proofs.Grammar
import L20n.Proofs.Grouping
import L20n.Proofs.Height
import L20n.Proofs.Levels
import L20n.Proofs.Lexeme
import L20n.Proofs.Literal
import L20n.Proofs.Locality
import L20n.Proofs.Lockstep
import L20n.Proofs.Loose
import L20n.Proofs.Loosening
import L20n.Proofs.Marks
import L20n.Proofs.Minimality
import L20n.Proofs.Needs
import L20n.Proofs.Options
import L20n.Proofs.Outcome
import L20n.Proofs.Parts
import L20n.Proofs.ReferenceGrammar
import L20n.Proofs.Refusals
import L20n.Proofs.Reordering
import L20n.Proofs.Rereading
import L20n.Proofs.RoundTrip
import L20n.Proofs.RuleFaults
import L20n.Proofs.Rules
import L20n.Proofs.Runs
import L20n.Proofs.Sanitizing
import L20n.Proofs.Scanning
import L20n.Proofs.Shape
import L20n.Proofs.Spelling
import L20n.Proofs.Steady
import L20n.Proofs.StringText
import L20n.Proofs.Takes
import L20n.Proofs.Traversal
import L20n.Proofs.Unambiguity
import L20n.Proofs.Viable
import L20n.Proofs.Windows
import L20n.Reader
import L20n.Reader.Entry
import L20n.Reader.Expression
import L20n.Reader.Inner
import L20n.Reader.Literal
import L20n.Reader.Value
import L20n.Resource.Read
import L20n.Resource.Run
import L20n.Session
import L20n.Table
import L20n.Text.Blank
import L20n.Text.Clip
import L20n.Text.Escape
import L20n.Text.Find
import L20n.Text.Json
import L20n.Text.Name
import L20n.Text.Numeral
import L20n.Text.Printable
import L20n.Text.Quoted
import L20n.Token
import L20n.Tree
import L20n.Tree.Describe
import L20n.Tree.Equality
import L20n.Walk
import L20n.Writer
