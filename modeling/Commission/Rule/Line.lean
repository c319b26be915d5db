import Commission.Rule
import Commission.Rule.ParseError

/-!
What a line of rule text is. A section marker is one wherever it stands; a header only without
indentation and before the first section; any other line is read as its section asks for.
-/
namespace Commission

inductive LineContent where
  | header (name : String) (priority : Int64)
  | marker (opened : Section)
  | condition (c : Condition)
  | calculation (text : String)
  | note (text : String)
  deriving DecidableEq, Repr

/-- `depth` counts whole units of four spaces. -/
structure Line where
  depth : Nat
  content : LineContent
  deriving DecidableEq, Repr

def LineContent.kind : LineContent → String
  | header .. => "rule header"
  | marker _ => "section marker"
  | condition _ => "condition"
  | calculation _ => "calculation"
  | note _ => "note"

def LineContent.describe : LineContent → String
  | header name priority => String.ofList (Rule.headerText name priority)
  | marker opened => opened.keyword
  | condition c => c.render
  | calculation text | note text => text

namespace Reading

def isNamePart (c : Char) : Bool := c.isAlphanum || c == '_' || c == ' '

def ruleName? : List Char → Option (List Char × List Char)
  | [] => none
  | c :: cs =>
    if c.isAlpha then some (c :: cs.takeWhile isNamePart, cs.dropWhile isNamePart) else none

def priority? (cs : List Char) : Option (Int64 × List Char) := do
  match cs with
  | '0' :: rest => return (0, rest)
  | _ =>
    let (negative, cs) := sign cs
    let (whole, rest) ← whole? cs
    if whole = ['0'] then none
    else
      let n ← int64? (Binary64.signed negative (Nat.ofDigitChars 10 whole 0))
      return (n, rest)

def header? (cs : List Char) : Option (String × Int64) := do
  let (name, cs) ← ruleName? cs
  guard (name.getLast? = some ' ')
  let cs ← dropText? ['('] cs
  let (priority, cs) ← priority? (Text.skipGaps cs)
  let cs ← dropText? [')'] (Text.skipGaps cs)
  guard (Text.skipGaps cs).isEmpty
  return (String.ofList (Text.trimEnd name), priority)

def marker? (cs : List Char) : Option Section :=
  [Section.conditions, .calculation, .notes].find? (fun s => s.keyword.toList = cs)

end Reading

namespace Line

def depthOf : List Char → Nat
  | ' ' :: ' ' :: ' ' :: ' ' :: cs => depthOf cs + 1
  | _ => 0

def contentOf (number depth : Nat) (body : List Char) (inside : Option Section) :
    Except ParseError LineContent :=
  match Reading.marker? body with
  | some opened => .ok (.marker opened)
  | none =>
  match if depth = 0 ∧ inside = none then Reading.header? body else none with
  | some (name, priority) => .ok (.header name priority)
  | none =>
  let text := String.ofList body
  match inside with
  | some .conditions =>
    match Reading.condition body with
    | .ok c => .ok (.condition c)
    | .error expected => .error (.unreadable number text (expected ++ [.sectionMarker]))
  | some .calculation => .ok (.calculation text)
  | some .notes => .ok (.note text)
  | none =>
    match Reading.condition body with
    | .ok c => .ok (.condition c)
    | .error _ => .ok (.calculation text)

def read (number : Nat) (text : List Char) (inside : Option Section) : Except ParseError Line :=
  let depth := depthOf (Text.trimEnd text)
  (contentOf number depth (Text.trim text) inside).map fun content => ⟨depth, content⟩

end Line

end Commission
