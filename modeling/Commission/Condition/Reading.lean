import Commission.Condition
import Commission.Value.Reading

/-!
Reading a condition from the trimmed text of a line. A text that is no condition is told apart by
what stood in the way, which is what the error of the line lists.
-/
namespace Commission

inductive Expected where
  | fieldName
  | operator
  | number
  | string
  | boolean
  | word
  | condition
  | sectionMarker
  deriving DecidableEq, Repr

def Expected.text : Expected → String
  | fieldName => "field name"
  | operator => "operator"
  | number => "number"
  | string => "string"
  | boolean => "boolean"
  | word => "word"
  | condition => "condition"
  | sectionMarker => "section marker"

namespace Reading

def gap? : List Char → Option (List Char)
  | [] => none
  | c :: cs => if Text.isGap c then some (Text.skipGaps cs) else none

def dropText? : List Char → List Char → Option (List Char)
  | [], cs => some cs
  | _ :: _, [] => none
  | a :: as, c :: cs => if a = c then dropText? as cs else none

def operator? (cs : List Char) : Option (Operator × List Char) :=
  Operator.all.findSome? fun op => (dropText? op.symbol.toList cs).map fun rest => (op, rest)

def condition (cs : List Char) : Except (List Expected) Condition :=
  match Text.Identifier.read? cs with
  | none => .error [.fieldName]
  | some (field, cs) =>
  match gap? cs with
  | none => .error [.condition]
  | some cs =>
  match operator? cs with
  | none => .error [.operator]
  | some (operator, cs) =>
  match gap? cs with
  | none => .error [.condition]
  | some cs =>
  match value? cs with
  | none => .error [.number, .string, .boolean, .word]
  | some (value, cs) =>
  match Text.skipGaps cs with
  | _ :: _ => .error [.condition]
  | [] => .ok ⟨String.ofList field, operator, value⟩

end Reading

end Commission
