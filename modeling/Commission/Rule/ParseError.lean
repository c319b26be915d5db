import Commission.Condition.Reading

/-!
Why a text holds no rule, and the message for each cause. Lines are counted from one over the
whole text, blank lines included.
-/
namespace Commission

inductive ParseError where
  | unreadable (line : Nat) (text : String) (expected : List Expected)
  | missingHeader
  | missingCalculation (rule : String)
  | outsideSection (line : Nat) (text : String)
  | duplicateHeader (line : Nat) (name : String)
  | multipleRules (line : Nat)
  deriving DecidableEq, Repr

namespace ParseError

def line? : ParseError → Option Nat
  | unreadable line .. | outsideSection line _ | duplicateHeader line _ | multipleRules line =>
    some line
  | missingHeader | missingCalculation _ => none

def shift (lines : Nat) : ParseError → ParseError
  | unreadable line text expected => unreadable (line + lines) text expected
  | outsideSection line text => outsideSection (line + lines) text
  | duplicateHeader line name => duplicateHeader (line + lines) name
  | multipleRules line => multipleRules (line + lines)
  | e => e

def message : ParseError → String
  | unreadable line text expected =>
    s!"line {line}: cannot parse '{text}', expected " ++
      " or ".intercalate (expected.map Expected.text)
  | missingHeader => "rule block has no header line ('<name> (<priority>)')"
  | missingCalculation rule => s!"rule '{rule}' has no calculation in its Then section"
  | outsideSection line text =>
    s!"line {line}: '{text}' is not inside a section that accepts it"
  | duplicateHeader line name => s!"line {line}: second rule header '{name}' in one block"
  | multipleRules line => s!"line {line}: text holds more than one rule block"

end ParseError

end Commission
