import BlockMarkup.About
import BlockMarkup.Document.Body
import BlockMarkup.Document.Flaw
import BlockMarkup.Document.Read
import BlockMarkup.Document.Value
import BlockMarkup.Expression.Literal
import BlockMarkup.Expression.Renderer
import BlockMarkup.Expression.Tidy
import BlockMarkup.Failure
import BlockMarkup.Forest.Basic
import BlockMarkup.Forest.Edit
import BlockMarkup.Forest.Outline
import BlockMarkup.Forest.Place
import BlockMarkup.Forest.Property
import BlockMarkup.Forest.Walk
import BlockMarkup.Format
import BlockMarkup.Layout.Formatter
import BlockMarkup.Layout.Script
import BlockMarkup.Node.Basic
import BlockMarkup.Node.Describe
import BlockMarkup.Node.Kind
import BlockMarkup.Node.Make
import BlockMarkup.Node.Span
import BlockMarkup.Text.Blank
import BlockMarkup.Text.HiddenTable
import BlockMarkup.Text.Lines
import BlockMarkup.Text.Quoted
import BlockMarkup.Text.Ranges
import BlockMarkup.Text.Value
import BlockMarkup.Text.Word
import BlockMarkup.Text.WordTable
import BlockMarkup.Token.Basic
import BlockMarkup.Token.Lexer
import BlockMarkup.Token.Pattern
import BlockMarkup.Token.Rule
import BlockMarkup.Tree
import BlockMarkup.Proofs.Token.Bound
import BlockMarkup.Proofs.Token.Scan
import BlockMarkup.Proofs.Token.Formed
import BlockMarkup.Proofs.Token.Steps
import BlockMarkup.Proofs.Text.Name
import BlockMarkup.Proofs.Token.Spelling
import BlockMarkup.Proofs.Token.Opener
import BlockMarkup.Proofs.Document.Flawless
import BlockMarkup.Proofs.Document.Nodes
import BlockMarkup.Proofs.Document.Placed
import BlockMarkup.Proofs.Layout.Outcome
import BlockMarkup.Proofs.Format
import BlockMarkup.Proofs.Document.Accept
import BlockMarkup.Proofs.Token.First
import BlockMarkup.Proofs.Document.Reading
import BlockMarkup.Proofs.Document.Line
import BlockMarkup.Proofs.Layout.Reread
import BlockMarkup.Proofs.Expression.Orderly
import BlockMarkup.Proofs.Canonical
import BlockMarkup.Proofs.Document.DataModel
import BlockMarkup.Proofs.Expression.Cuts
import BlockMarkup.Proofs.Expression.Stands
import BlockMarkup.Proofs.Expression.Carried
import BlockMarkup.Proofs.Text.Lines
import BlockMarkup.Proofs.Expression.Rendered
import BlockMarkup.Proofs.Expression.Pieces
import BlockMarkup.Proofs.Document.Located
import BlockMarkup.Proofs.Expression.Moved
import BlockMarkup.Proofs.Document.Expressions
import BlockMarkup.Proofs.Document.Onward
import BlockMarkup.Proofs.Document.Joined
import BlockMarkup.Proofs.Document.Relocated
import BlockMarkup.Proofs.Layout.Refusal
import BlockMarkup.Proofs.Expression.Stable
import BlockMarkup.Proofs.Layout.Filled
import BlockMarkup.Proofs.Layout.Accepted
import BlockMarkup.Proofs.Composition
import BlockMarkup.Proofs.Expression.KeptLines
import BlockMarkup.Proofs.Layout.Grammar
import BlockMarkup.Proofs.Layout.Items
import BlockMarkup.Proofs.Expression.Counter
import BlockMarkup.Proofs.Expression.Counted
import BlockMarkup.Proofs.Document.Transcribed
import BlockMarkup.Proofs.Document.Spans
import BlockMarkup.Proofs.Document.Slices
import BlockMarkup.Proofs.Document.Factory
import BlockMarkup.Proofs.Layout.Alike
import BlockMarkup.Proofs.Document.Origins
import BlockMarkup.Proofs.Expression.Gaps
import BlockMarkup.Proofs.Document.LineEnds
import BlockMarkup.Proofs.Document.Refused
import BlockMarkup.Proofs.Token.Lossless
import BlockMarkup.Proofs.Forest.Ascent
import BlockMarkup.Proofs.Forest.Children
import BlockMarkup.Proofs.Forest.Planted
import BlockMarkup.Proofs.Forest.History
import BlockMarkup.Proofs.Forest.Linked
import BlockMarkup.Proofs.Forest.Loops
import BlockMarkup.Proofs.Forest.Copied
import BlockMarkup.Proofs.Forest.Faults
import BlockMarkup.Proofs.Layout.Culprit
import BlockMarkup.Proofs.Layout.Silent
import BlockMarkup.Proofs.Forest.Unfolded
import BlockMarkup.Proofs.Forest.Tour
import BlockMarkup.Proofs.Forest.Drawn
import BlockMarkup.Proofs.Expression.LiteralLines
import BlockMarkup.Proofs.Token.Attached
import BlockMarkup.Proofs.Document.Paired
import BlockMarkup.Proofs.Expression.Hung
import BlockMarkup.Proofs.Layout.Rewritten
import BlockMarkup.Proofs.Expression.Relexed
import BlockMarkup.Proofs.Expression.Sealed
import BlockMarkup.Proofs.Document.Lasting
import BlockMarkup.Proofs.Idempotence
