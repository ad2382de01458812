import MailMerge.Block.Basic
import MailMerge.Block.Ledger
import MailMerge.Block.Replace
import MailMerge.Command.Arguments
import MailMerge.Command.Fixtures
import MailMerge.Command.Outcome
import MailMerge.Command.Parts
import MailMerge.Command.Run
import MailMerge.ContextFile
import MailMerge.Decimal.Float
import MailMerge.Decimal.Numeral
import MailMerge.Decimal.Shortest
import MailMerge.Directive.Basic
import MailMerge.Directive.Registry
import MailMerge.Environment
import MailMerge.Evaluation
import MailMerge.Failure
import MailMerge.Field.Basic
import MailMerge.Field.Instruction
import MailMerge.Field.Scan
import MailMerge.Fixture.Basic
import MailMerge.Fixture.Suite
import MailMerge.Fixture.Verdict
import MailMerge.Host
import MailMerge.Json.Reader
import MailMerge.Main
import MailMerge.Markup.Attribute
import MailMerge.Markup.Escape
import MailMerge.Markup.Fault
import MailMerge.Markup.Piece
import MailMerge.Markup.Reader
import MailMerge.Markup.Writer
import MailMerge.Media
import MailMerge.Merge.Evaluate
import MailMerge.Merge.PartFile
import MailMerge.Merge.Run
import MailMerge.Merge.Session
import MailMerge.Operand
import MailMerge.Outline
import MailMerge.Proofs.Block.Apart
import MailMerge.Proofs.Block.Capture
import MailMerge.Proofs.Block.Edits
import MailMerge.Proofs.Block.Enclosed
import MailMerge.Proofs.Block.Renamed
import MailMerge.Proofs.Block.Renumbered
import MailMerge.Proofs.Block.Resolve
import MailMerge.Proofs.Block.Reworded
import MailMerge.Proofs.Block.Sealed
import MailMerge.Proofs.Block.Spliced
import MailMerge.Proofs.Block.Uses
import MailMerge.Proofs.Directive.Table
import MailMerge.Proofs.Field.Anchors
import MailMerge.Proofs.Field.Below
import MailMerge.Proofs.Field.Copied
import MailMerge.Proofs.Field.Echoed
import MailMerge.Proofs.Field.Grammar
import MailMerge.Proofs.Field.Renamed
import MailMerge.Proofs.Field.Renumbered
import MailMerge.Proofs.Field.Spread
import MailMerge.Proofs.Fixture.Split
import MailMerge.Proofs.Markup.Growth
import MailMerge.Proofs.Markup.Laid
import MailMerge.Proofs.Markup.Layout
import MailMerge.Proofs.Markup.RoundTrip
import MailMerge.Proofs.Markup.Shift
import MailMerge.Proofs.Markup.Spans
import MailMerge.Proofs.Markup.Stable
import MailMerge.Proofs.Media.Numbered
import MailMerge.Proofs.Merge.Added
import MailMerge.Proofs.Merge.Again
import MailMerge.Proofs.Merge.Agrees
import MailMerge.Proofs.Merge.Beside
import MailMerge.Proofs.Merge.Blame
import MailMerge.Proofs.Merge.Cells
import MailMerge.Proofs.Merge.Checked
import MailMerge.Proofs.Merge.Chosen
import MailMerge.Proofs.Merge.Closed
import MailMerge.Proofs.Merge.Consumed
import MailMerge.Proofs.Merge.Depth
import MailMerge.Proofs.Merge.Dropped
import MailMerge.Proofs.Merge.Edits
import MailMerge.Proofs.Merge.Failing
import MailMerge.Proofs.Merge.Gone
import MailMerge.Proofs.Merge.Inserted
import MailMerge.Proofs.Merge.Items
import MailMerge.Proofs.Merge.Kept
import MailMerge.Proofs.Merge.Lenient
import MailMerge.Proofs.Merge.Lifted
import MailMerge.Proofs.Merge.Linked
import MailMerge.Proofs.Merge.Mentioned
import MailMerge.Proofs.Merge.Nesting
import MailMerge.Proofs.Merge.Parts
import MailMerge.Proofs.Merge.Pending
import MailMerge.Proofs.Merge.Pictures
import MailMerge.Proofs.Merge.Released
import MailMerge.Proofs.Merge.Renumbered
import MailMerge.Proofs.Merge.Scopes
import MailMerge.Proofs.Merge.Scratch
import MailMerge.Proofs.Merge.Spans
import MailMerge.Proofs.Merge.Spared
import MailMerge.Proofs.Merge.Steps
import MailMerge.Proofs.Merge.Supplied
import MailMerge.Proofs.Merge.Told
import MailMerge.Proofs.Merge.Upheld
import MailMerge.Proofs.Operand.Written
import MailMerge.Proofs.Outline.Built
import MailMerge.Proofs.Outline.Faults
import MailMerge.Proofs.Outline.Groups
import MailMerge.Proofs.Outline.Idle
import MailMerge.Proofs.Outline.Rebuilt
import MailMerge.Proofs.Outline.Renumbered
import MailMerge.Proofs.Outline.Started
import MailMerge.Proofs.Outline.Stock
import MailMerge.Proofs.Outline.Unmatched
import MailMerge.Proofs.Outline.WellNested
import MailMerge.Proofs.Splice.Dressed
import MailMerge.Proofs.Splice.Edits
import MailMerge.Proofs.Splice.Exact
import MailMerge.Proofs.Splice.Filled
import MailMerge.Proofs.Splice.Inert
import MailMerge.Proofs.Splice.Lifts
import MailMerge.Proofs.Splice.Lines
import MailMerge.Proofs.Splice.Nesting
import MailMerge.Proofs.Splice.Renumbered
import MailMerge.Proofs.Splice.Reworded
import MailMerge.Proofs.Splice.Rows
import MailMerge.Proofs.Splice.Seated
import MailMerge.Proofs.Splice.Whole
import MailMerge.Proofs.Template.Basic
import MailMerge.Proofs.Template.Bodies
import MailMerge.Proofs.Template.Merged
import MailMerge.Proofs.Template.Part
import MailMerge.Proofs.Template.Pieces
import MailMerge.Proofs.Template.Plan
import MailMerge.Proofs.Template.Stage
import MailMerge.Proofs.Text.LineEnd
import MailMerge.Proofs.Toml.LineEnd
import MailMerge.Proofs.Traversal
import MailMerge.Proofs.Tree.Copy
import MailMerge.Proofs.Tree.Doubled
import MailMerge.Proofs.Tree.Exchange
import MailMerge.Proofs.Tree.Fence
import MailMerge.Proofs.Tree.Links
import MailMerge.Proofs.Tree.Order
import MailMerge.Proofs.Tree.Padded
import MailMerge.Proofs.Tree.Renamed
import MailMerge.Proofs.Tree.Renumbered
import MailMerge.Proofs.Tree.Reworded
import MailMerge.Proofs.Tree.Spans
import MailMerge.Proofs.Tree.Spared
import MailMerge.Proofs.Tree.Twigs
import MailMerge.Proofs.Tree.Walked
import MailMerge.Proofs.Tree.WellFormed
import MailMerge.Proofs.Tree.Wordless
import MailMerge.Proofs.Value.Emptiness
import MailMerge.Proofs.Value.MarkedKeys
import MailMerge.Proofs.Value.Reach
import MailMerge.Report
import MailMerge.Splice.Markup
import MailMerge.Splice.Target
import MailMerge.Splice.Text
import MailMerge.Statement
import MailMerge.Text.Blank
import MailMerge.Text.CaseMap
import MailMerge.Text.CaseTable
import MailMerge.Text.CodeRanges
import MailMerge.Text.Cut
import MailMerge.Text.Digit
import MailMerge.Text.Path
import MailMerge.Text.Read
import MailMerge.Text.Utf8
import MailMerge.Text.Width
import MailMerge.Text.WidthTable
import MailMerge.Toml.Item
import MailMerge.Toml.Moment
import MailMerge.Toml.Quoted
import MailMerge.Toml.Reader
import MailMerge.Tree.Basic
import MailMerge.Tree.Edit
import MailMerge.Tree.Walk
import MailMerge.Value.Basic
import MailMerge.Value.MarkupKeys
import MailMerge.Value.Members
import MailMerge.Word
