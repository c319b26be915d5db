import Commission.Number.Binary64

/-!
Arithmetic on double-precision numbers: the exact result, rounded once. Only powers are left to
the machine. An operation without a value gives NaN.
-/
namespace Commission.Binary64

def neg : Binary64 → Binary64
  | finite negative m => finite (!negative) m
  | infinite negative => infinite (!negative)
  | nan => nan

def abs : Binary64 → Binary64
  | finite _ m => finite false m
  | infinite _ => infinite false
  | nan => nan

/-- A sum that cancels is positive zero, unless both summands are negative zeros. -/
def add : Binary64 → Binary64 → Binary64
  | finite p a, finite q b =>
    let sum := signed p a.units + signed q b.units
    nearest (if sum = 0 then p && q else decide (sum < 0)) sum.natAbs 1
  | nan, _ | _, nan => nan
  | infinite p, infinite q => if p = q then infinite p else nan
  | infinite p, finite .. | finite .., infinite p => infinite p

def sub (x y : Binary64) : Binary64 := add x y.neg

def mul : Binary64 → Binary64 → Binary64
  | finite p a, finite q b => nearest (p != q) (a.units * b.units) unitsPerOne
  | nan, _ | _, nan => nan
  | infinite p, infinite q => infinite (p != q)
  | infinite p, finite q a | finite q a, infinite p =>
    if a.units = 0 then nan else infinite (p != q)

def div : Binary64 → Binary64 → Binary64
  | finite p a, finite q b =>
    if b.units = 0 then (if a.units = 0 then nan else infinite (p != q))
    else nearest (p != q) (a.units * unitsPerOne) b.units
  | nan, _ | _, nan => nan
  | infinite _, infinite _ => nan
  | infinite p, finite q _ => infinite (p != q)
  | finite p _, infinite q => nearest (p != q) 0 1

/-- Greatest natural whose square is at most `n`, found one binary digit after the other. -/
def rootBelow (n : Nat) : Nat :=
  (List.range (n.log2 / 2 + 1)).foldr
    (fun place root =>
      let candidate := root + 2 ^ place
      if candidate * candidate ≤ n then candidate else root) 0

/-- The root of a number of units has over five hundred binary digits before the point. When it
    is irrational, half a unit above its floor therefore rounds as the root does. -/
def sqrt : Binary64 → Binary64
  | finite negative m =>
    if m.units = 0 then finite negative m
    else if negative then nan
    else
      let square := m.units * unitsPerOne
      let root := rootBelow square
      if root * root = square then nearest false root 1 else nearest false (2 * root + 1) 2
  | infinite false => infinite false
  | infinite true | nan => nan

def ofWhole (negative : Bool) (n : Nat) : Binary64 := nearest negative (n * unitsPerOne) 1

def floor : Binary64 → Binary64
  | finite negative m =>
    let whole := m.units / unitsPerOne
    if m.units % unitsPerOne = 0 then finite negative m
    else ofWhole negative (if negative then whole + 1 else whole)
  | x => x

def ceil : Binary64 → Binary64
  | finite negative m =>
    let whole := m.units / unitsPerOne
    if m.units % unitsPerOne = 0 then finite negative m
    else ofWhole negative (if negative then whole else whole + 1)
  | x => x

/-- Nearest whole number, a half going away from zero. -/
def round : Binary64 → Binary64
  | finite negative m =>
    let whole := m.units / unitsPerOne
    let rest := m.units % unitsPerOne
    if rest = 0 then finite negative m
    else ofWhole negative (if unitsPerOne ≤ 2 * rest then whole + 1 else whole)
  | x => x

def min (x y : Binary64) : Binary64 := if x.isNaN || y.lt x then y else x

def max (x y : Binary64) : Binary64 := if x.isNaN || x.lt y then y else x

def pow (x y : Binary64) : Binary64 :=
  ofBits ((Float.ofBits x.toBits).pow (Float.ofBits y.toBits)).toBits

def toNat? (x : Binary64) : Option Nat :=
  match x.ordinate? with
  | some n => if x.isWhole && 0 ≤ n then some (n.toNat / unitsPerOne) else none
  | none => none

end Commission.Binary64
