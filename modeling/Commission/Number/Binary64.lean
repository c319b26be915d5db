import Commission.Number.Rounding

/-!
Double-precision numbers as data. Finite magnitudes are numbered in increasing order from zero, so
a number is a sign and a position; every magnitude is a whole number of units of 2^-1074. Order,
equality and rounding are stated in units, in exact integer arithmetic. There is one NaN.

`nearestPosition_units` says that a value on the grid rounds to itself.
-/
namespace Commission

-- Powers in this library are the core ones, also where a file sees the monoids of Mathlib.
attribute [instance (2000), default_instance 20000] instPowNat

/-- The number of finite magnitudes, which is also the position of infinity. -/
def finiteMagnitudes : Nat := 2047 * 2 ^ 52

/-- Every finite magnitude is a whole number of units of `2 ^ -unitExponent`. -/
@[irreducible] def unitExponent : Nat := 1074

@[irreducible] def unitsPerOne : Nat := 2 ^ unitExponent

structure Magnitude where
  position : Nat
  isFinite : position < finiteMagnitudes
  deriving DecidableEq, Repr

namespace Magnitude

/-- The value in units: below 2^53 the position itself, above it a significand of 53 bits
    shifted by one place more in each binade. -/
def units (m : Magnitude) : Nat :=
  if m.position < 2 ^ 53 then m.position
  else (2 ^ 52 + m.position % 2 ^ 52) * 2 ^ (m.position / 2 ^ 52 - 1)

end Magnitude

/-- Position of the magnitude nearest to `num / den` units. A significand that rounds up to 2^53
    lands on the first position of the next binade. -/
def nearestPosition (num den : Nat) : Nat :=
  let shift := (num / den).log2 - 52
  roundDiv num (den * 2 ^ shift) + shift * 2 ^ 52

inductive Binary64 where
  | finite (negative : Bool) (magnitude : Magnitude)
  | infinite (negative : Bool)
  | nan
  deriving DecidableEq, Repr

namespace Binary64

def nearest (negative : Bool) (num den : Nat) : Binary64 :=
  let position := nearestPosition num den
  if h : position < finiteMagnitudes then finite negative ⟨position, h⟩ else infinite negative

def zero : Binary64 := finite false ⟨0, by decide⟩

def ofInt (n : Int) : Binary64 := nearest (n < 0) (n.natAbs * unitsPerOne) 1

def ofBool (b : Bool) : Binary64 := if b then ofInt 1 else zero

def isFinite : Binary64 → Bool
  | finite .. => true
  | _ => false

def isNaN : Binary64 → Bool
  | nan => true
  | _ => false

def signed (negative : Bool) (n : Nat) : Int := if negative then -n else n

/-- Where a number lies on the line, in units; the infinities lie beyond all finite numbers. -/
def ordinate? : Binary64 → Option Int
  | finite negative m => some (signed negative m.units)
  | infinite negative => some (signed negative (2 ^ 2098))
  | nan => none

/-- Numerical order; the two zeros are equal and NaN is comparable with nothing. -/
def compare? (x y : Binary64) : Option Ordering := do
  let a ← x.ordinate?
  let b ← y.ordinate?
  return compare a b

def eq (x y : Binary64) : Bool := x.compare? y == some .eq

def lt (x y : Binary64) : Bool := x.compare? y == some .lt

def le (x y : Binary64) : Bool := x.lt y || x.eq y

def isZero (x : Binary64) : Bool := x.ordinate? == some 0

def isWhole : Binary64 → Bool
  | finite _ m => m.units % unitsPerOne == 0
  | _ => false

/-- Interchange format: sign, eleven bits of exponent, 52 bits of fraction. -/
def toBits (x : Binary64) : UInt64 :=
  let (negative, position) := match x with
    | finite negative m => (negative, m.position)
    | infinite negative => (negative, finiteMagnitudes)
    | nan => (false, finiteMagnitudes + 2 ^ 51)
  UInt64.ofNat (position + if negative then 2 ^ 63 else 0)

def ofBits (bits : UInt64) : Binary64 :=
  let negative := decide (2 ^ 63 ≤ bits.toNat)
  let position := bits.toNat % 2 ^ 63
  if h : position < finiteMagnitudes then finite negative ⟨position, h⟩
  else if position = finiteMagnitudes then infinite negative
  else nan

end Binary64

theorem unitsPerOne_pos : 0 < unitsPerOne := by
  unfold unitsPerOne
  exact Nat.two_pow_pos _

theorem nearestPosition_mul_right (num den : Nat) {c : Nat} (pos : 0 < c) :
    nearestPosition (num * c) (den * c) = nearestPosition num den := by
  simp only [nearestPosition, Nat.mul_div_mul_right num den pos, Nat.mul_right_comm den c,
    roundDiv_mul_right num _ pos]

theorem nearestPosition_units (m : Magnitude) : nearestPosition m.units 1 = m.position := by
  simp only [nearestPosition, Nat.div_one, Nat.one_mul, Magnitude.units]
  split
  · next low =>
    have shift : m.position.log2 - 52 = 0 := by
      by_cases z : m.position = 0
      · simp [z]
      · have := (Nat.log2_lt z).2 low
        omega
    simpa [shift] using roundDiv_exact m.position Nat.one_pos
  · next high =>
    have fraction : m.position % 2 ^ 52 < 2 ^ 52 := Nat.mod_lt _ (by decide)
    generalize hs : m.position / 2 ^ 52 - 1 = s
    have whole := Nat.div_add_mod m.position (2 ^ 52)
    have binade : m.position / 2 ^ 52 = s + 1 := by
      have : 2 ≤ m.position / 2 ^ 52 := by
        rw [Nat.le_div_iff_mul_le (by decide)]
        omega
      omega
    have shift : ((2 ^ 52 + m.position % 2 ^ 52) * 2 ^ s).log2 = 52 + s := by
      have nonzero : (2 ^ 52 + m.position % 2 ^ 52) * 2 ^ s ≠ 0 :=
        Nat.mul_ne_zero (by omega) (Nat.pos_iff_ne_zero.1 (Nat.two_pow_pos s))
      have lower : 2 ^ (52 + s) ≤ (2 ^ 52 + m.position % 2 ^ 52) * 2 ^ s := by
        rw [Nat.pow_add]
        exact Nat.mul_le_mul_right _ (by omega)
      have upper : (2 ^ 52 + m.position % 2 ^ 52) * 2 ^ s < 2 ^ (53 + s) := by
        rw [Nat.pow_add]
        exact Nat.mul_lt_mul_of_pos_right (by omega) (Nat.two_pow_pos s)
      have := (Nat.le_log2 nonzero).2 lower
      have := (Nat.log2_lt nonzero).2 upper
      omega
    rw [shift, show 52 + s - 52 = s by omega, roundDiv_exact _ (Nat.two_pow_pos s)]
    rw [binade] at whole
    omega

end Commission
