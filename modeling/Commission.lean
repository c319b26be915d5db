import Commission.Json.Codec
import Commission.Proofs.Rule.Payout
import Commission.Proofs.Condition.Exactness
import Commission.Proofs.Rule.Concatenation
import Commission.Proofs.Rule.Formation
import Commission.Proofs.Rule.Gate
import Commission.Proofs.Rule.Limits
import Commission.Proofs.Rule.Mentions
import Commission.Proofs.Rule.Parentheses
import Commission.Proofs.Rule.Reordering
import Commission.Proofs.Rule.Strictness
import Commission.Proofs.Value.Comparison
import Commission.Proofs.Rule.Readable
import Commission.Proofs.Json.RoundTrip
import Commission.Proofs.Rule.Layout
import Commission.Proofs.Expr.Values
import Commission.Proofs.Expr.Laziness
import Commission.Proofs.Expr.Visits
import Commission.Proofs.Expr.Finiteness
import Commission.Proofs.Rule.Requirements
import Commission.Proofs.Rule.ConditionOrder
import Commission.Proofs.Value.Coherence
import Commission.Proofs.Condition.Membership
import Commission.Proofs.Expr.Widening
import Commission.Proofs.Expr.Substitution
import Commission.Proofs.Expr.Kinds
import Commission.Proofs.Expr.Size
import Commission.Proofs.Rule.Classification
import Commission.Proofs.Rule.Positions
