import Commission.Json.Basic
import Commission.Number.Scientific

/-!
Numbers of compact JSON texts. A literal without fraction and exponent that fits 64 bits, with a sign or
without, is an integer; any other is the nearest float. Floats are written with the fewest digits
that identify them, and with a fraction or an exponent.
-/
namespace Commission.Json

/-- A number as it is spelled. The exponent has a sign and digits. -/
structure Literal where
  negative : Bool
  whole : List Char
  fraction : Option (List Char) := none
  exponent : Option (Bool × List Char) := none
  deriving DecidableEq, Repr

namespace Literal

def decimal (l : Literal) : Decimal :=
  let d := Decimal.ofDigits l.whole (l.fraction.getD [])
  let shift := match l.exponent with
    | none => 0
    | some (negative, digits) => Binary64.signed negative (Nat.ofDigitChars 10 digits 0)
  ⟨d.digits, d.exponent + shift⟩

/-- Negative zero is no integer. -/
def integer? (l : Literal) : Option Int :=
  if l.fraction.isSome || l.exponent.isSome then none
  else
    let n := Nat.ofDigitChars 10 l.whole 0
    if l.negative then
      if 0 < n ∧ n ≤ 2 ^ 63 then some (-n) else none
    else if n < 2 ^ 64 then some n else none

def tree (l : Literal) : Json :=
  match l.integer? with
  | some n => .int n
  | none =>
    match Binary64.ofScientific l.negative l.decimal with
    | .finite negative m => .float (.finite negative m)
    | _ => .unreadable

def ofInt (n : Int) : Literal := ⟨n < 0, Nat.toDigits 10 n.natAbs, none, none⟩

def plainExponents : Int × Int := (-5, 15)

/-- Lays out a decimal: a whole number has the fraction `0`, and the exponent, if there is one,
    is that of the leading digit. -/
def ofDecimal (negative : Bool) (d : Decimal) : Literal :=
  let digits := Nat.toDigits 10 d.digits
  let leading := d.exponent + digits.length - 1
  if d.digits = 0 then ⟨negative, ['0'], some ['0'], none⟩
  else if plainExponents.1 ≤ leading ∧ leading ≤ plainExponents.2 then
    let text := d.positional
    let whole := text.takeWhile Char.isDigit
    let fraction := (text.dropWhile Char.isDigit).drop 1
    ⟨negative, whole, some (if fraction.isEmpty then ['0'] else fraction), none⟩
  else
    let fraction := digits.drop 1
    ⟨negative, digits.take 1, if fraction.isEmpty then none else some fraction,
      some (leading < 0, Nat.toDigits 10 leading.natAbs)⟩

def ofFloat? : Binary64 → Option Literal
  | .finite negative m => some (ofDecimal negative (Decimal.shortest .toEven m))
  | _ => none

def text (l : Literal) : List Char :=
  Binary64.signText l.negative ++ l.whole ++
  (match l.fraction with
    | none => []
    | some fraction => '.' :: fraction) ++
  match l.exponent with
    | none => []
    | some (negative, digits) => 'e' :: (if negative then '-' else '+') :: digits

end Literal

end Commission.Json
