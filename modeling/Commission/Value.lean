import Commission.Number.Decimal
import Commission.Operator
import Commission.Text.Quoted

/-!
Values of conditions and of evaluation contexts: how they compare and how they are written in a
rule. Numbers compare by value, integers through the nearest double-precision number; apart from
that only values of one kind are ever equal or ordered.
-/
namespace Commission

inductive Scalar where
  | int (n : Int64)
  | float (x : Binary64)
  | bool (b : Bool)
  | text (s : String)
  deriving DecidableEq, Repr

/-- Lists stand on the right of `in`, or in a context to be compared with such a list. -/
inductive Value where
  | scalar (s : Scalar)
  | list (items : List Scalar)
  deriving DecidableEq, Repr

inductive Kind where
  | number
  | boolean
  | string
  | list
  deriving DecidableEq, Repr

def Kind.name : Kind → String
  | number => "number"
  | boolean => "boolean"
  | string => "string"
  | list => "list"

namespace Scalar

def kind : Scalar → Kind
  | int _ | float _ => .number
  | bool _ => .boolean
  | text _ => .string

/-- The order of two scalars, if they have one. Texts are ordered by code points. -/
def order? : Scalar → Scalar → Option Ordering
  | int a, int b => some (compare a.toInt b.toInt)
  | float a, float b => a.compare? b
  | int a, float b => (Binary64.ofInt a.toInt).compare? b
  | float a, int b => a.compare? (Binary64.ofInt b.toInt)
  | bool a, bool b => some (compare a.toNat b.toNat)
  | text a, text b => some (compareOfLessAndEq a b)
  | _, _ => none

def strictEq : Scalar → Scalar → Bool
  | int a, int b => a == b
  | float a, float b => a.eq b
  | int a, float b => (Binary64.ofInt a.toInt).eq b
  | float a, int b => a.eq (Binary64.ofInt b.toInt)
  | bool a, bool b => a == b
  | text a, text b => a == b
  | _, _ => false

/-- Verdict of an operator between two scalars, if it has one: `in` never does, an order only
    between scalars that are ordered. -/
def compare? (a : Scalar) (op : Operator) (b : Scalar) : Option Bool :=
  match op with
  | .eq => some (a.strictEq b)
  | .ne => some (!a.strictEq b)
  | .gt => (a.order? b).map (· == .gt)
  | .ge => (a.order? b).map (· != .lt)
  | .lt => (a.order? b).map (· == .lt)
  | .le => (a.order? b).map (· != .gt)
  | .isIn => none

def toNumber? : Scalar → Option Binary64
  | int n => some (Binary64.ofInt n.toInt)
  | float x => some x
  | bool b => some (Binary64.ofBool b)
  | text _ => none

def toText? : Scalar → Option String
  | text s => some s
  | _ => none

/-- Same kind of scalar and same content. Unlike `strictEq` this tells an integer from a float;
    like it, it knows one zero, and no NaN is like another. -/
def alike : Scalar → Scalar → Bool
  | int a, int b => a == b
  | float a, float b => a.eq b
  | bool a, bool b => a == b
  | text a, text b => a == b
  | _, _ => false

end Scalar

def integerText (n : Int) : List Char := Binary64.signText (n < 0) ++ Nat.toDigits 10 n.natAbs

/-- Text of a number in a rule. A whole number is written in full with the fraction `.0`, so that
    it reads back as a number of this kind. -/
def Binary64.ruleText : Binary64 → List Char
  | .finite negative m =>
    if m.units % unitsPerOne = 0 then
      signText negative ++ Nat.toDigits 10 (m.units / unitsPerOne) ++ ['.', '0']
    else plainText (.finite negative m)
  | x => x.plainText

namespace Scalar

def ruleText : Scalar → List Char
  | int n => integerText n.toInt
  | float x => x.ruleText
  | bool b => (toString b).toList
  | text s => '"' :: Text.Quoted.encode s.toList ++ ['"']

def render (s : Scalar) : String := String.ofList s.ruleText

end Scalar

namespace Value

def kind : Value → Kind
  | scalar s => s.kind
  | list _ => .list

def strictEq : Value → Value → Bool
  | scalar a, scalar b => a.strictEq b
  | list as, list bs => as.length == bs.length && (as.zip bs).all fun (a, b) => a.strictEq b
  | _, _ => false

def alike : Value → Value → Bool
  | scalar a, scalar b => a.alike b
  | list as, list bs => as.length == bs.length && (as.zip bs).all fun (a, b) => a.alike b
  | _, _ => false

def toList? : Value → Option (List Scalar)
  | list items => some items
  | scalar _ => none

def ruleText : Value → List Char
  | scalar s => s.ruleText
  | list items => '[' :: [',', ' '].intercalate (items.map Scalar.ruleText) ++ [']']

def render (v : Value) : String := String.ofList v.ruleText

end Value

end Commission
