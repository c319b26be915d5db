import Commission.Condition
import Commission.Context
import Commission.Expr.Basic

/-!
The conditions of a rule as a gate: they are tried in order up to the first that does not hold.
-/
namespace Commission

inductive EvaluationError where
  | missingField (field : String)
  | notAList (field : String) (found : Kind)
  | calculation (text : String) (source : ExprError)
  | inRule (rule : String) (source : EvaluationError)
  deriving DecidableEq, Repr

namespace EvaluationError

def cause : EvaluationError → EvaluationError
  | inRule _ source => source.cause
  | e => e

def message : EvaluationError → String
  | missingField field => s!"missing field '{field}' in context"
  | notAList field found => s!"operator 'in' on field '{field}' needs a list, got " ++ found.name
  | calculation text source => s!"cannot evaluate '{text}': " ++ source.message
  | inRule rule source => s!"rule '{rule}': " ++ source.message

end EvaluationError

namespace Condition

/-- The value to compare with: a text that names an entry of the context stands for that entry. -/
def operand (ctx : Context) : Value → Value
  | .scalar (.text name) => (ctx.get? name).getD (.scalar (.text name))
  | v => v

def compares (actual : Value) (op : Operator) (expected : Value) : Bool :=
  match actual, expected with
  | .scalar a, .scalar b => (a.compare? op b).getD false
  | _, _ =>
    match op with
    | .eq => actual.strictEq expected
    | .ne => !actual.strictEq expected
    | _ => false

/-- A list is a member of nothing. -/
def isMember (actual : Value) (items : List Scalar) : Bool :=
  match actual with
  | .scalar s => items.any s.strictEq
  | .list _ => false

def eval (ctx : Context) (c : Condition) : Except EvaluationError Bool :=
  match ctx.get? c.field with
  | none => .error (.missingField c.field)
  | some actual =>
    let expected := operand ctx c.value
    match c.operator with
    | .isIn =>
      match expected with
      | .list items => .ok (isMember actual items)
      | v => .error (.notAList c.field v.kind)
    | op => .ok (compares actual op expected)

/-- Position, counted from one, of the first condition that does not hold. -/
def firstFailing (ctx : Context) : List Condition → Except EvaluationError (Option Nat)
  | [] => .ok none
  | c :: cs =>
    match c.eval ctx with
    | .error e => .error e
    | .ok false => .ok (some 1)
    | .ok true => (firstFailing ctx cs).map (Option.map (· + 1))

end Condition

end Commission
