import Commission.Number.Decimal
import Commission.Expr.Builtin
import Commission.Value

/-!
Calculations as trees, and why one yields no amount, with the message for each cause.
-/
namespace Commission

inductive BinaryOp where
  | add
  | sub
  | mul
  | div
  deriving DecidableEq, Repr

/-- Groups and plus signs leave no node. -/
inductive Expr where
  | number (x : Binary64)
  | var (name : String)
  | negate (e : Expr)
  | binary (op : BinaryOp) (lhs rhs : Expr)
  | call (name : String) (args : List Expr)
  deriving Repr

def maxCalculationBytes : Nat := 1000

/-- The deepest nesting of groups, calls and signs that is read. -/
def maxNesting : Nat := 32

/-- What a calculation could have held where reading stopped. An outer operand adds its own entry
    after those of the operands inside it. -/
inductive Wanted where
  | operand
  | closing
  | shallower
  deriving DecidableEq, Repr

def Wanted.text : Wanted → String
  | operand => "number, variable, function call or '('"
  | closing => "`)`"
  | shallower => "shallower nesting of parentheses, calls and signs"

inductive ArgumentFault where
  | negativeRoot (x : Binary64)
  | digitCount (x : Binary64)
  | notANumber
  deriving DecidableEq, Repr

def ArgumentFault.message : ArgumentFault → String
  | negativeRoot x => "square root of negative number " ++ x.plain
  | digitCount x => "digit count must be an integer in 0..=15, got " ++ x.plain
  | notANumber => "result is not a number"

inductive ExprError where
  | malformed (offset : Nat) (wanted : List Wanted)
  | tooLong (bytes : Nat)
  | unknownVariable (name : String)
  | nonNumericVariable (name : String) (found : Kind)
  | functionAsValue (name : String)
  | unknownFunction (name : String)
  | arity (function : String) (expected : Arity) (found : Nat)
  | divisionByZero
  | invalidArgument (function : Builtin) (fault : ArgumentFault)
  | nonFinite (value : Binary64)
  | nonNumeric
  deriving DecidableEq, Repr

/-- Nothing is listed where a whole calculation is followed by more text. -/
def Wanted.listing : List Wanted → String
  | [] => ""
  | wanted => "expected " ++ ", ".intercalate (wanted.map Wanted.text)

def ExprError.message : ExprError → String
  | malformed offset wanted => s!"syntax error at offset {offset}: " ++ Wanted.listing wanted
  | tooLong bytes => s!"expression is {bytes} bytes long; the limit is {maxCalculationBytes}"
  | unknownVariable name => s!"missing variable '{name}'"
  | nonNumericVariable name found => s!"variable '{name}' is a " ++ found.name ++ ", not a number"
  | functionAsValue name => s!"function '{name}' cannot be used as a value"
  | unknownFunction name => s!"unknown function '{name}'"
  | arity function expected found =>
    s!"function '{function}' takes " ++ expected.text ++ s!" argument(s), got {found}"
  | divisionByZero => "division by zero"
  | invalidArgument function fault =>
    "invalid argument to '" ++ function.name ++ "': " ++ fault.message
  | nonFinite value => "value " ++ value.plain ++ " is not finite"
  | nonNumeric => "result is a boolean, not a number"

end Commission
