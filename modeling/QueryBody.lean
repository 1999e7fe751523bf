import QueryBody.Diagnostic.Page
import QueryBody.Interchange.Records
import QueryBody.Naming
import QueryBody.Proofs.Meaning
import QueryBody.Proofs.Reports
import QueryBody.Proofs.Sentence
import QueryBody.Proofs.SentenceRun
import QueryBody.Proofs.SilentRun
import QueryBody.Proofs.Admission
import QueryBody.Proofs.Beginnings
import QueryBody.Proofs.Acceptance
import QueryBody.Proofs.Lookahead
import QueryBody.Proofs.Continuation
import QueryBody.Proofs.SilentFragment
import QueryBody.Proofs.Completion
import QueryBody.Proofs.BrokenToken
import QueryBody.Proofs.Expectation
import QueryBody.Proofs.Truncation
import QueryBody.Proofs.NumberText
import QueryBody.Proofs.NumberToken
import QueryBody.Proofs.StringToken
import QueryBody.Proofs.Reread
import QueryBody.Proofs.TemplateTokens
import QueryBody.Proofs.RoundTrip
import QueryBody.Proofs.Moves
import QueryBody.Proofs.Tiling
import QueryBody.Proofs.ReportOrder
import QueryBody.Proofs.Numbering
import QueryBody.Proofs.Origins
import QueryBody.Proofs.Growth
import QueryBody.Proofs.Streaming
import QueryBody.Parser.Descent
import QueryBody.Proofs.Arena
import QueryBody.Proofs.TokenText
import QueryBody.Proofs.DescentSteps
import QueryBody.Proofs.DescentAgreement
import QueryBody.Proofs.DescentRecovery
import QueryBody.Proofs.DescentValues
import QueryBody.Proofs.DescentContainers
import QueryBody.Proofs.Descent
import QueryBody.Proofs.UncutFragments
import QueryBody.Proofs.AppendedTokens
import QueryBody.Proofs.LastingReports
import QueryBody.Proofs.CodeUnits
import QueryBody.Proofs.SortedEntries
import QueryBody.Proofs.JsonGrammar
import QueryBody.Proofs.JsonTexts
import QueryBody.Proofs.Layout
import QueryBody.Proofs.CutQueries
import QueryBody.Proofs.Relocation
import QueryBody.Proofs.Stages
import QueryBody.Proofs.ConfinedErrors
import QueryBody.Proofs.Outline
import QueryBody.Proofs.LaterReports
import QueryBody.Proofs.NestingLimit
import QueryBody.Proofs.StreamedReports
import QueryBody.Proofs.GivingUp
import QueryBody.Proofs.Positions
import QueryBody.Proofs.ErrorItems
import QueryBody.Proofs.Blanking
import QueryBody.Proofs.MissingSeparators
import QueryBody.Proofs.MatchedBrackets
import QueryBody.Proofs.CutComments
import QueryBody.Proofs.SameTokens
import QueryBody.Proofs.EarlierReports
import QueryBody.Proofs.StrayWords
import QueryBody.Proofs.Deletion
import QueryBody.Proofs.TrailingCommas
import QueryBody.Proofs.ExcessTokens
import QueryBody.Proofs.Reachability
import QueryBody.Proofs.CutPlaceholders
import QueryBody.Proofs.Unescaping
import QueryBody.Proofs.NumberGrammar
import QueryBody.Proofs.QuotedText
import QueryBody.Proofs.ClosingQuotes
import QueryBody.Proofs.TokenSequence
import QueryBody.Proofs.PlacedData
import QueryBody.Proofs.MissingValues
import QueryBody.Proofs.EqualTrees
import QueryBody.Proofs.LiteralParts
import QueryBody.Proofs.EqualTemplates
import QueryBody.Proofs.Binary64
import QueryBody.Proofs.Rounding
import QueryBody.Proofs.ExactScaling
import QueryBody.Proofs.ShortestDecimal
import QueryBody.Proofs.DecimalText
import QueryBody.Proofs.RereadNumbers
