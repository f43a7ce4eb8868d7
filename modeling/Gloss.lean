import Gloss.Record.Codec
import Gloss.Record.Finding
import Gloss.Session
import Gloss.Proofs.Cache
import Gloss.Proofs.Cache.History
import Gloss.Proofs.Config
import Gloss.Proofs.Config.Separation
import Gloss.Proofs.Session
import Gloss.Proofs.Failure
import Gloss.Proofs.Candidate
import Gloss.Proofs.Resolution
import Gloss.Proofs.Resolution.Greedy
import Gloss.Proofs.Scan
import Gloss.Proofs.Selection
import Gloss.Proofs.Translation
import Gloss.Proofs.Profile
import Gloss.Proofs.Mask.Position
import Gloss.Proofs.Mask.Decomposition
import Gloss.Proofs.Mask.Line
import Gloss.Proofs.Mask.Unmarked
import Gloss.Proofs.Mask.Cut
import Gloss.Proofs.Detect.Arithmetic
import Gloss.Proofs.Detect.Body
import Gloss.Proofs.Detect.Comment
import Gloss.Proofs.Detect.Coverage
import Gloss.Proofs.Detect.Division
import Gloss.Proofs.Detect.Exclusion
import Gloss.Proofs.Detect.Header
import Gloss.Proofs.Detect.Inclusive
import Gloss.Proofs.Detect.Literal
import Gloss.Proofs.Detect.Power
import Gloss.Proofs.Detect.Quotation
import Gloss.Proofs.Detect.Quotient
import Gloss.Proofs.Text.Break
import Gloss.Proofs.Text.Join
import Gloss.Proofs.Text.Part
import Gloss.Proofs.Text.Start
import Gloss.Proofs.Text.Word
import Gloss.Proofs.Expr.Grammar
import Gloss.Proofs.Expr.Reading
import Gloss.Proofs.Expr.Complete
import Gloss.Proofs.Expr.Layout
import Gloss.Proofs.Expr.Bound
import Gloss.Proofs.Expr.Within
import Gloss.Proofs.Expr.Inline
import Gloss.Proofs.Expr.Local
import Gloss.Proofs.Expr.Front
import Gloss.Proofs.Expr.Erasure
import Gloss.Proofs.Expr.Escape
import Gloss.Proofs.Expr.Typeset
import Gloss.Proofs.Expr.Markup
import Gloss.Proofs.Expr.Node
import Gloss.Proofs.Expr.Parenthesis
import Gloss.Proofs.Expr.Limit
import Gloss.Proofs.Formula
import Gloss.Proofs.Record.Exchange
import Gloss.Proofs.Record.Render
