import Commission.Expr.Evaluation
import Commission.Gate
import Commission.Rule.Draft
import Commission.Rule.Validation

/-!
A service reads, checks and evaluates rules under one configuration: the fields conditions may
test, the functions calculations may call, and the policy for lines without a place.
-/
namespace Commission

inductive RuleError where
  | parse (e : ParseError)
  | validation (e : ValidationError)
  deriving DecidableEq, Repr

/-- What evaluating a rule gave: the amount, which is zero if a condition did not hold, and the
    position of that condition, counted from one. -/
structure Outcome where
  rule : String
  amount : Binary64
  failedCondition : Option Nat
  deriving DecidableEq, Repr

namespace Outcome

def fired (o : Outcome) : Bool := o.failedCondition.isNone

def render (o : Outcome) : String :=
  o.rule ++ match o.failedCondition with
    | none => ": fired, amount " ++ o.amount.plain
    | some i => s!": gated out by condition {i}"

end Outcome

structure Service where
  fields : FieldSet := .commission
  functions : FunctionTable := .standard
  policy : Policy := .lenient

namespace Service

def validate (s : Service) (r : Rule) : Except ValidationError Unit := r.validate s.fields

def checked (s : Service) (r : Rule) : Except RuleError Rule :=
  match s.validate r with
  | .ok () => .ok r
  | .error e => .error (.validation e)

def parse (s : Service) (text : String) : Except RuleError Rule :=
  match Rule.parse s.policy text with
  | .ok r => s.checked r
  | .error e => .error (.parse e)

def ofBlock (s : Service) (block : List Text.NumberedLine) : Except RuleError Rule :=
  match Rule.ofBlock s.policy block with
  | .ok r => s.checked r
  | .error e => .error (.parse e)

def parseMany (s : Service) (text : String) : Except RuleError (List Rule) :=
  (Text.blocks text.toList).mapM s.ofBlock

/-- The gate comes first; the calculation is looked at only if all conditions hold. -/
def outcome (s : Service) (ctx : Context) (r : Rule) : Except EvaluationError Outcome :=
  match Condition.firstFailing ctx r.conditions with
  | .error e => .error e
  | .ok (some i) => .ok ⟨r.name, .zero, some i⟩
  | .ok none =>
    match Expr.evaluate s.functions ctx r.calculation with
    | .error e => .error (.calculation r.calculation e)
    | .ok amount => .ok ⟨r.name, amount, none⟩

def evaluateDetailed (s : Service) (ctx : Context) (r : Rule) : Except EvaluationError Outcome :=
  (s.outcome ctx r).mapError (.inRule r.name)

def evaluate (s : Service) (ctx : Context) (r : Rule) : Except EvaluationError Binary64 :=
  (s.evaluateDetailed ctx r).map Outcome.amount

end Service

end Commission
