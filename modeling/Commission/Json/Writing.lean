import Commission.Json.Number
import Commission.NameMap

/-!
Compact JSON texts: no blanks, strings with the short escapes, `null` for floats that have no
literal.
-/
namespace Commission.Json

def unitText (n : Nat) : List Char :=
  let ds := Nat.toDigits 16 n
  List.replicate (4 - ds.length) '0' ++ ds

def charText (c : Char) : List Char :=
  if c = '"' then ['\\', '"']
  else if c = '\\' then ['\\', '\\']
  else if c = '\x08' then ['\\', 'b']
  else if c = '\x0c' then ['\\', 'f']
  else if c = '\n' then ['\\', 'n']
  else if c = '\r' then ['\\', 'r']
  else if c = '\t' then ['\\', 't']
  else if c.toNat < 0x20 then '\\' :: 'u' :: unitText c.toNat
  else [c]

def quoted (s : String) : List Char := '"' :: s.toList.flatMap charText ++ ['"']

def floatText (x : Binary64) : List Char :=
  match Literal.ofFloat? x with
  | some l => l.text
  | none => "null".toList

def commaSeparated : List (List Char) → List Char
  | [] => []
  | [part] => part
  | part :: rest => part ++ ',' :: commaSeparated rest

def arrayText (items : List (List Char)) : List Char := '[' :: (commaSeparated items ++ [']'])

def memberText : String × List Char → List Char
  | (key, value) => quoted key ++ ':' :: value

def objectText (members : List (String × List Char)) : List Char :=
  '\x7b' :: (commaSeparated (members.map memberText) ++ ['\x7d'])

mutual

def compactText : Json → List Char
  | null | unreadable => "null".toList
  | bool b => (toString b).toList
  | int n => (Literal.ofInt n).text
  | float x => floatText x
  | text s => quoted s
  | array items => arrayText (itemTexts items)
  | object members => objectText (memberTexts members)

def itemTexts : List Json → List (List Char)
  | [] => []
  | item :: rest => item.compactText :: itemTexts rest

def memberTexts : List (String × Json) → List (String × List Char)
  | [] => []
  | (key, value) :: rest => (key, value.compactText) :: memberTexts rest

end

mutual

/-- The tree with the members of its objects in the order of their keys. Of members with one key
    the last one is kept. -/
def sorted : Json → Json
  | array items => array (sortedItems items)
  | object members => object (NameMap.ofList (sortedMembers members)).entries
  | j => j

def sortedItems : List Json → List Json
  | [] => []
  | item :: rest => item.sorted :: sortedItems rest

def sortedMembers : List (String × Json) → List (String × Json)
  | [] => []
  | (key, value) :: rest => (key, value.sorted) :: sortedMembers rest

end

def write (j : Json) : List Char := j.sorted.compactText

end Commission.Json
