import FontSizeLint.Session
import FontSizeLint.Proofs.Css.Boundary
import FontSizeLint.Proofs.Css.Provenance
import FontSizeLint.Proofs.Css.Position
import FontSizeLint.Proofs.Lint.Violations
import FontSizeLint.Proofs.Lint.Highlight
import FontSizeLint.Proofs.Css.Append
import FontSizeLint.Proofs.Lint.Compliance
import FontSizeLint.Proofs.Session.Dispatch
import FontSizeLint.Proofs.Session.Conservation
import FontSizeLint.Proofs.Session.Isolation
import FontSizeLint.Proofs.Css.Open
import FontSizeLint.Proofs.Css.Unplaced
import FontSizeLint.Proofs.Css.Resume
import FontSizeLint.Proofs.Css.Grouping
import FontSizeLint.Proofs.Css.SourceOrder
import FontSizeLint.Proofs.Session.Order
import FontSizeLint.Proofs.Text.Spelling
import FontSizeLint.Proofs.Css.SpelledName
import FontSizeLint.Proofs.Css.SpelledNumber
import FontSizeLint.Proofs.Css.SpelledToken
import FontSizeLint.Proofs.Css.Likeness
import FontSizeLint.Proofs.Css.SpelledSheet
import FontSizeLint.Proofs.Text.BreakStyle
import FontSizeLint.Proofs.Lint.Spelling
import FontSizeLint.Proofs.Json.Grammar
import FontSizeLint.Proofs.Json.Reader
import FontSizeLint.Proofs.Json.Writer
import FontSizeLint.Proofs.Report.RoundTrip
import FontSizeLint.Proofs.Session.Strictness
import FontSizeLint.Proofs.Css.Progress
import FontSizeLint.Proofs.Css.WellNested
import FontSizeLint.Proofs.Css.Reading
import FontSizeLint.Proofs.Css.Importance
import FontSizeLint.Proofs.Css.Severance
import FontSizeLint.Proofs.Css.Severed
import FontSizeLint.Proofs.Css.PlainMark
import FontSizeLint.Proofs.Css.Reread
import FontSizeLint.Proofs.Css.Recovery
import FontSizeLint.Proofs.Css.Partition
import FontSizeLint.Proofs.Numeric.Nearest
import FontSizeLint.Proofs.Css.Magnitude
import FontSizeLint.Proofs.Css.Spaced
import FontSizeLint.Proofs.Css.Marking
import FontSizeLint.Proofs.Text.Trim
import FontSizeLint.Proofs.Numeric.Shortest
import FontSizeLint.Proofs.Threshold.Printed
import FontSizeLint.Proofs.Numeric.Twice
import FontSizeLint.Proofs.Threshold.Integer
import FontSizeLint.Proofs.Css.PartText
import FontSizeLint.Proofs.Report.Lines
import FontSizeLint.Proofs.Text.Partition
import FontSizeLint.Proofs.Text.Bytes
import FontSizeLint.Proofs.Css.LeadingNumber
import FontSizeLint.Proofs.Text.Highlight
import FontSizeLint.Proofs.Lint.Colour
import FontSizeLint.Css.Parser.Stylesheet
import FontSizeLint.Proofs.Css.Parser
