import Commission.Expr.Basic
import Commission.FieldSet
import Commission.Rule

/-!
Constraints on rules. They are checked in a fixed order (name, priority, conditions, calculation,
notes) and the first one that is broken is reported.
-/
namespace Commission

inductive ValidationError where
  | emptyName
  | nameTooLong (length : Nat)
  | invalidName (name : String)
  | priorityOutOfRange (priority : Int64)
  | noConditions
  | tooManyConditions (count : Nat)
  | unknownField (index : Nat) (field : String) (valid : List String)
  | listExpected (index : Nat)
  | emptyList (index : Nat)
  | listTooLong (index length : Nat)
  | scalarExpected (index : Nat) (operator : Operator)
  | emptyCalculation
  | calculationTooLong (bytes : Nat)
  | invalidCalculationChar (text : String) (found : Char)
  | unbalancedParentheses (text : String)
  | nestingTooDeep (text : String)
  | notesTooLong (length : Nat)
  deriving DecidableEq, Repr

def maxNameLength : Nat := 100
def minPriority : Int := 1
def maxPriority : Int := 100
def maxConditions : Nat := 10
def maxListLength : Nat := 10
def maxNotesLength : Nat := 500

def calculationSymbols : List Char := ['_', '+', '-', '*', '/', '(', ')', '.', ' ', ',']

namespace ValidationError

/-- The valid choices, where there are finitely many. -/
def details? : ValidationError → Option (List String)
  | unknownField _ _ valid => some valid
  | scalarExpected .. => some ((Operator.all.filter (· != .isIn)).map Operator.symbol)
  | invalidCalculationChar .. =>
    some (["A-Z", "a-z", "0-9"] ++ calculationSymbols.map Char.toString)
  | _ => none

def message : ValidationError → String
  | emptyName => "rule name must not be empty"
  | nameTooLong length => s!"rule name is {length} characters long; the limit is {maxNameLength}"
  | invalidName name =>
    s!"rule name '{name}' must start with a letter and contain only letters, digits, " ++
      "underscores and spaces"
  | priorityOutOfRange priority =>
    "priority " ++ String.ofList (integerText priority.toInt) ++
      s!" is outside {minPriority}..={maxPriority}"
  | noConditions => "rule has no conditions; at least one is required"
  | tooManyConditions count => s!"rule has {count} conditions; the limit is {maxConditions}"
  | unknownField index field _ => s!"condition {index}: unknown field '{field}'"
  | listExpected index => s!"condition {index}: operator 'in' needs a list of values"
  | emptyList index => s!"condition {index}: 'in' list must not be empty"
  | listTooLong index length =>
    s!"condition {index}: 'in' list has {length} values; the limit is {maxListLength}"
  | scalarExpected index operator =>
    s!"condition {index}: operator '" ++ operator.symbol ++
      "' needs a single value, not a list"
  | emptyCalculation => "calculation must not be empty"
  | calculationTooLong bytes =>
    s!"calculation is {bytes} bytes long; the limit is {maxCalculationBytes}"
  | invalidCalculationChar text found =>
    s!"calculation '{text}' contains invalid character '{found}'"
  | unbalancedParentheses text => s!"calculation '{text}' has unbalanced parentheses"
  | nestingTooDeep text =>
    s!"calculation '{text}' nests parentheses deeper than {maxNesting} levels"
  | notesTooLong length => s!"notes are {length} characters long; the limit is {maxNotesLength}"

end ValidationError

namespace Rule

def require (met : Bool) (e : ValidationError) : Except ValidationError Unit :=
  if met then .ok () else .error e

def isName : List Char → Bool
  | [] => false
  | c :: cs => c.isAlpha && cs.all fun c => c.isAlphanum || c == '_' || c == ' '

def checkName (name : String) : Except ValidationError Unit := do
  let cs := name.toList
  require (!cs.isEmpty) .emptyName
  require (cs.length ≤ maxNameLength) (.nameTooLong cs.length)
  require (isName cs) (.invalidName name)

def checkPriority (priority : Int64) : Except ValidationError Unit :=
  require (minPriority ≤ priority.toInt && priority.toInt ≤ maxPriority)
    (.priorityOutOfRange priority)

def checkCondition (fields : FieldSet) (index : Nat) (c : Condition) :
    Except ValidationError Unit := do
  require (fields.contains c.field) (.unknownField index c.field fields.names)
  match c.operator, c.value with
  | .isIn, .list items =>
    require (!items.isEmpty) (.emptyList index)
    require (items.length ≤ maxListLength) (.listTooLong index items.length)
  | .isIn, .scalar _ => .error (.listExpected index)
  | op, .list _ => .error (.scalarExpected index op)
  | _, .scalar _ => .ok ()

def checkConditionsFrom (fields : FieldSet) (index : Nat) :
    List Condition → Except ValidationError Unit
  | [] => .ok ()
  | c :: cs => do
    checkCondition fields index c
    checkConditionsFrom fields (index + 1) cs

def checkConditions (fields : FieldSet) (cs : List Condition) : Except ValidationError Unit := do
  require (!cs.isEmpty) .noConditions
  require (cs.length ≤ maxConditions) (.tooManyConditions cs.length)
  checkConditionsFrom fields 1 cs

def isCalculationChar (c : Char) : Bool := c.isAlphanum || calculationSymbols.contains c

/-- The deepest nesting of parentheses, or none if they do not balance. `depth` parentheses are
    open already and `deepest` was reached before. -/
def nesting? (depth deepest : Nat) : List Char → Option Nat
  | [] => if depth = 0 then some deepest else none
  | '(' :: cs => nesting? (depth + 1) (max deepest (depth + 1)) cs
  | ')' :: cs => if depth = 0 then none else nesting? (depth - 1) deepest cs
  | _ :: cs => nesting? depth deepest cs

def checkCalculation (calculation : String) : Except ValidationError Unit := do
  let cs := Text.trim calculation.toList
  let text := String.ofList cs
  require (!cs.isEmpty) .emptyCalculation
  require (Text.byteCount cs ≤ maxCalculationBytes) (.calculationTooLong (Text.byteCount cs))
  match cs.find? (fun c => !isCalculationChar c) with
  | some found => .error (.invalidCalculationChar text found)
  | none =>
    match nesting? 0 0 cs with
    | none => .error (.unbalancedParentheses text)
    | some deepest => require (deepest ≤ maxNesting) (.nestingTooDeep text)

def checkNotes : Option String → Except ValidationError Unit
  | none => .ok ()
  | some notes => require (notes.length ≤ maxNotesLength) (.notesTooLong notes.length)

def validate (fields : FieldSet) (r : Rule) : Except ValidationError Unit := do
  checkName r.name
  checkPriority r.priority
  checkConditions fields r.conditions
  checkCalculation r.calculation
  checkNotes r.notes

end Rule

end Commission
