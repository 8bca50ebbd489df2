import Multipoly.CoefficientSystem
import Multipoly.Descent
import Multipoly.Lexer
import Multipoly.Main
import Multipoly.Poly.Derivative
import Multipoly.Poly.Eval
import Multipoly.Poly.EvalMany
import Multipoly.Poly.Operand
import Multipoly.PolyQuotient
import Multipoly.Proofs.TermOrder
import Multipoly.Proofs.WellFormed
import Multipoly.Proofs.Literal
import Multipoly.Proofs.Scanning
import Multipoly.Proofs.Reading
import Multipoly.Proofs.Outcome
import Multipoly.Proofs.Soundness
import Multipoly.Proofs.Completeness
import Multipoly.Proofs.Statement
import Multipoly.Proofs.Grammar
import Multipoly.Proofs.ParsedTerms
import Multipoly.Proofs.Reachable
import Multipoly.Proofs.SameRing
import Multipoly.Proofs.Denotation
import Multipoly.Proofs.RingLaws
import Multipoly.Proofs.StoredTerms
import Multipoly.Proofs.ZeroTerms
import Multipoly.Proofs.Meaning
import Multipoly.Proofs.Evaluation
import Multipoly.Proofs.DecimalText
import Multipoly.Proofs.Rendering
import Multipoly.Proofs.RoundTrip
import Multipoly.Proofs.Identity
import Multipoly.Proofs.Lookahead
import Multipoly.Proofs.DecimalCoefficients
import Multipoly.Proofs.Respelling
import Multipoly.Proofs.Place
import Multipoly.Proofs.Tracking
import Multipoly.Proofs.Spacing
import Multipoly.Proofs.EarliestRejection
import Multipoly.Proofs.EvaluationLaws
import Multipoly.Proofs.MissingValues
import Multipoly.Proofs.Munching
import Multipoly.Proofs.Failures
import Multipoly.Proofs.PlainSums
import Multipoly.Proofs.Derivation
import Multipoly.Proofs.ForeignOperands
import Multipoly.Proofs.LeadingTerms
import Multipoly.Proofs.GradedOrder
import Multipoly.Proofs.Lookup
import Multipoly.Proofs.MergeSteps
import Multipoly.Proofs.OperandForms
import Multipoly.Proofs.UniqueText
import Multipoly.Proofs.ExactDecimals
import Multipoly.Proofs.MonomialText
import Multipoly.Proofs.WrittenText
import Multipoly.Proofs.Transcript
import Multipoly.Proofs.Stepping
import Multipoly.Proofs.Following
import Multipoly.Proofs.Progress
