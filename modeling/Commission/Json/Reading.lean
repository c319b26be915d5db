import Commission.Json.Writing

/-!
The reader of the compact format: one value with blanks around it, no comments, no trailing commas.
Strings are read with the code units of their escapes, of which halves of a pair are put together
afterwards: a text may hold half a pair where nobody reads it.
-/
namespace Commission.Json

inductive Piece where
  | char (c : Char)
  | unit (n : Nat)
  deriving DecidableEq, Repr

def isHighHalf (n : Nat) : Bool := 0xD800 ≤ n && n < 0xDC00

def isLowHalf (n : Nat) : Bool := 0xDC00 ≤ n && n < 0xE000

def decode? : List Piece → Option (List Char)
  | [] => some []
  | .char c :: rest => (decode? rest).map (c :: ·)
  | .unit high :: .unit low :: rest =>
    if isHighHalf high then
      if isLowHalf low then
        let c := Char.ofNat (0x10000 + (high - 0xD800) * 0x400 + (low - 0xDC00))
        (decode? rest).map (c :: ·)
      else none
    else if isLowHalf high then none
    else (decode? (.unit low :: rest)).map (Char.ofNat high :: ·)
  | .unit n :: rest =>
    if isHighHalf n || isLowHalf n then none else (decode? rest).map (Char.ofNat n :: ·)

def decodedText? (pieces : List Piece) : Option String := (decode? pieces).map String.ofList

def ofPieces (pieces : List Piece) : Json :=
  match decodedText? pieces with
  | some s => text s
  | none => unreadable

def decodedMember? : List Piece × Json → Option (String × Json)
  | (key, value) => (decodedText? key).map fun text => (text, value)

def ofMembers (members : List (List Piece × Json)) : Json :=
  match members.mapM decodedMember? with
  | some members => object members
  | none => unreadable

def isSpace (c : Char) : Bool := c == ' ' || c == '\n' || c == '\t' || c == '\r'

def skipSpaces (cs : List Char) : List Char := cs.dropWhile isSpace

def hexDigit? (c : Char) : Option Nat :=
  if c.isDigit then some (c.toNat - '0'.toNat)
  else if 'a' ≤ c ∧ c ≤ 'f' then some (c.toNat - 'a'.toNat + 10)
  else if 'A' ≤ c ∧ c ≤ 'F' then some (c.toNat - 'A'.toNat + 10)
  else none

def codeUnit? (a b c d : Char) : Option Nat := do
  let a ← hexDigit? a
  let b ← hexDigit? b
  let c ← hexDigit? c
  let d ← hexDigit? d
  return ((a * 16 + b) * 16 + c) * 16 + d

def escaped? : Char → Option Char
  | '"' => some '"'
  | '\\' => some '\\'
  | '/' => some '/'
  | 'b' => some '\x08'
  | 'f' => some '\x0c'
  | 'n' => some '\n'
  | 'r' => some '\r'
  | 't' => some '\t'
  | _ => none

def pieces? : List Char → Option (List Piece × List Char)
  | [] => none
  | '"' :: cs => some ([], cs)
  | '\\' :: 'u' :: a :: b :: c :: d :: cs => do
    let n ← codeUnit? a b c d
    let (pieces, rest) ← pieces? cs
    return (.unit n :: pieces, rest)
  | '\\' :: c :: cs => do
    let c ← escaped? c
    let (pieces, rest) ← pieces? cs
    return (.char c :: pieces, rest)
  | c :: cs =>
    if c.toNat < 0x20 || c == '\\' then none
    else (pieces? cs).map fun (pieces, rest) => (.char c :: pieces, rest)

def digits? (cs : List Char) : Option (List Char × List Char) :=
  let digits := cs.takeWhile Char.isDigit
  if digits.isEmpty then none else some (digits, cs.dropWhile Char.isDigit)

def fraction? : List Char → Option (Option (List Char) × List Char)
  | '.' :: cs => (digits? cs).map fun (digits, rest) => (some digits, rest)
  | cs => some (none, cs)

def exponent? : List Char → Option (Option (Bool × List Char) × List Char)
  | [] => some (none, [])
  | c :: cs =>
    if c = 'e' ∨ c = 'E' then
      let (negative, cs) := Commission.Reading.sign cs
      (digits? cs).map fun (digits, rest) => (some (negative, digits), rest)
    else some (none, c :: cs)

def minus : List Char → Bool × List Char
  | '-' :: cs => (true, cs)
  | cs => (false, cs)

def literal? (cs : List Char) : Option (Literal × List Char) := do
  let (negative, cs) := minus cs
  let (whole, cs) ← Commission.Reading.whole? cs
  guard (whole ≠ ['0'] ∨ ¬ (cs.head?.any Char.isDigit))
  let (fraction, cs) ← fraction? cs
  let (exponent, cs) ← exponent? cs
  return (⟨negative, whole, fraction, exponent⟩, cs)

mutual

/-- Reads one value. A level of nesting costs a character and two rounds, a further item a
    character and one round, so twice the length of the text is fuel enough. -/
def value? : Nat → List Char → Option (Json × List Char)
  | 0, _ => none
  | fuel + 1, cs =>
    match skipSpaces cs with
    | 'n' :: 'u' :: 'l' :: 'l' :: rest => some (null, rest)
    | 't' :: 'r' :: 'u' :: 'e' :: rest => some (bool true, rest)
    | 'f' :: 'a' :: 'l' :: 's' :: 'e' :: rest => some (bool false, rest)
    | '"' :: rest => (pieces? rest).map fun (pieces, rest) => (ofPieces pieces, rest)
    | '[' :: rest =>
      match skipSpaces rest with
      | ']' :: rest => some (array [], rest)
      | _ => (items? fuel rest).map fun (items, rest) => (array items, rest)
    | '\x7b' :: rest =>
      match skipSpaces rest with
      | '\x7d' :: rest => some (object [], rest)
      | _ => (members? fuel rest).map fun (members, rest) => (ofMembers members, rest)
    | cs => (literal? cs).map fun (l, rest) => (l.tree, rest)

def items? : Nat → List Char → Option (List Json × List Char)
  | 0, _ => none
  | fuel + 1, cs => do
    let (item, rest) ← value? fuel cs
    match skipSpaces rest with
    | ']' :: rest => return ([item], rest)
    | ',' :: rest =>
      let (items, rest) ← items? fuel rest
      return (item :: items, rest)
    | _ => none

def members? : Nat → List Char → Option (List (List Piece × Json) × List Char)
  | 0, _ => none
  | fuel + 1, cs =>
    match skipSpaces cs with
    | '"' :: rest => do
      let (key, rest) ← pieces? rest
      match skipSpaces rest with
      | ':' :: rest =>
        let (value, rest) ← value? fuel rest
        match skipSpaces rest with
        | '\x7d' :: rest => return ([(key, value)], rest)
        | ',' :: rest =>
          let (members, rest) ← members? fuel rest
          return ((key, value) :: members, rest)
        | _ => none
      | _ => none
    | _ => none

end

def parse? (text : String) : Option Json := do
  let cs := text.toList
  let (value, rest) ← value? (2 * cs.length + 1) cs
  guard (skipSpaces rest).isEmpty
  return value

namespace Format

def compact : Format := ⟨fun j => String.ofList j.compactText, parse?⟩

def sorted (F : Format) : Format := ⟨fun j => F.write j.sorted, F.read?⟩

end Format

end Commission.Json
