import Commission.Value

/-!
Conditions: a field, an operator and a value. The text of a condition is one line of a rule.
-/
namespace Commission

structure Condition where
  field : String
  operator : Operator
  value : Value
  deriving DecidableEq, Repr

namespace Condition

def ruleText (c : Condition) : List Char :=
  c.field.toList ++ ' ' :: c.operator.symbol.toList ++ ' ' :: c.value.ruleText

def render (c : Condition) : String := String.ofList c.ruleText

def alike (a b : Condition) : Bool :=
  a.field == b.field && a.operator == b.operator && a.value.alike b.value

end Condition

end Commission
