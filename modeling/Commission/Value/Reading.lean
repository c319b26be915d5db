import Commission.Text.Basic
import Commission.Text.Identifier
import Commission.Value

/-!
Reading the values of conditions: numbers without leading zeros, quoted texts, words, and lists
of these. Each reader gives what it read and the rest, or nothing.
-/
namespace Commission

def int64? (n : Int) : Option Int64 :=
  if Int64.minValue.toInt ≤ n ∧ n ≤ Int64.maxValue.toInt then some (Int64.ofInt n) else none

namespace Reading

def sign : List Char → Bool × List Char
  | '-' :: cs => (true, cs)
  | '+' :: cs => (false, cs)
  | cs => (false, cs)

def whole? : List Char → Option (List Char × List Char)
  | [] => none
  | c :: cs =>
    if c = '0' then some (['0'], cs)
    else if c.isDigit then some (c :: cs.takeWhile Char.isDigit, cs.dropWhile Char.isDigit)
    else none

def fraction? : List Char → Option (List Char × List Char)
  | '.' :: cs =>
    let digits := cs.takeWhile Char.isDigit
    if digits.isEmpty then none else some (digits, cs.dropWhile Char.isDigit)
  | _ => none

def number? (cs : List Char) : Option (Scalar × List Char) := do
  let (negative, cs) := sign cs
  let (whole, cs) ← whole? cs
  match fraction? cs with
  | some (fraction, cs) =>
    return (.float (.ofDecimal negative (.ofDigits whole fraction)), cs)
  | none =>
    let n ← int64? (Binary64.signed negative (Nat.ofDigitChars 10 whole 0))
    return (.int n, cs)

def ofWord (word : List Char) : Scalar :=
  let s := String.ofList word
  if s = "true" then .bool true
  else if s = "false" then .bool false
  else .text s

def word? (cs : List Char) : Option (Scalar × List Char) :=
  (Text.Identifier.read? cs).map fun (word, rest) => (ofWord word, rest)

def quoted? : List Char → Option (Scalar × List Char)
  | '"' :: cs =>
    (Text.Quoted.read? cs).map fun (content, rest) => (.text (String.ofList content), rest)
  | _ => none

def scalar? (cs : List Char) : Option (Scalar × List Char) :=
  quoted? cs <|> number? cs <|> word? cs

/-- The items of a list after the first one, up to the closing bracket. A comma stands before
    each of them, so the length of the text is fuel enough. -/
def moreItems? : Nat → List Char → Option (List Scalar × List Char)
  | 0, _ => none
  | fuel + 1, cs =>
    match Text.skipGaps cs with
    | ']' :: rest => some ([], rest)
    | ',' :: rest => do
      let (item, rest) ← scalar? (Text.skipGaps rest)
      let (items, rest) ← moreItems? fuel rest
      return (item :: items, rest)
    | _ => none

def list? : List Char → Option (List Scalar × List Char)
  | '[' :: cs =>
    let cs := Text.skipGaps cs
    match scalar? cs with
    | some (item, rest) => do
      let (items, rest) ← moreItems? (rest.length + 1) rest
      return (item :: items, rest)
    | none =>
      match cs with
      | ']' :: rest => some ([], rest)
      | _ => none
  | _ => none

def value? (cs : List Char) : Option (Value × List Char) :=
  ((list? cs).map fun (items, rest) => (.list items, rest)) <|>
    ((scalar? cs).map fun (item, rest) => (.scalar item, rest))

end Reading

end Commission
