import Commission.Number.Binary64

/-!
Decimal numbers and their text. Reading rounds a decimal to the nearest double-precision number;
writing chooses the fewest digits that read back. `ofDecimal_shortest` is the round trip, and
`positional` never uses an exponent.
-/
namespace Commission

/-- The number `digits * 10 ^ exponent`. -/
structure Decimal where
  digits : Nat
  exponent : Int
  deriving DecidableEq, Repr

namespace Decimal

def inUnits (d : Decimal) : Nat × Nat :=
  match d.exponent with
  | .ofNat e => (d.digits * 10 ^ e * unitsPerOne, 1)
  | .negSucc e => (d.digits * unitsPerOne, 10 ^ (e + 1))

def ofDigits (whole fraction : List Char) : Decimal :=
  ⟨Nat.ofDigitChars 10 (whole ++ fraction) 0, -fraction.length⟩

end Decimal

namespace Binary64

def ofDecimal (negative : Bool) (d : Decimal) : Binary64 :=
  nearest negative d.inUnits.1 d.inUnits.2

end Binary64

def digitCount (n : Nat) : Nat := (Nat.toDigits 10 n).length

namespace Decimal

def strip : Nat → Decimal → Decimal
  | 0, d => d
  | fuel + 1, d =>
    if d.digits ≠ 0 ∧ d.digits % 10 = 0 then strip fuel ⟨d.digits / 10, d.exponent + 1⟩ else d

def normal (d : Decimal) : Decimal := strip (digitCount d.digits) d

def exact (units : Nat) : Decimal := normal ⟨units * 5 ^ unitExponent, -unitExponent⟩

/-- The least exponent of a power of ten above `units`, of which there is at least one. -/
def scale (units : Nat) : Int := digitCount (units * 10 ^ 400 / unitsPerOne) - 400

inductive Tie where
  | up
  | toEven
  deriving DecidableEq, Repr

def onGrid (units : Nat) : Int → Nat × Nat
  | .ofNat e => (units, unitsPerOne * 10 ^ e)
  | .negSucc e => (units * 10 ^ (e + 1), unitsPerOne)

def neighbours (tie : Tie) (units : Nat) (exponent : Int) : List Decimal :=
  let (num, den) := onGrid units exponent
  let below := num / den
  let rest := num % den
  let lower := normal ⟨below, exponent⟩
  let upper := normal ⟨below + 1, exponent⟩
  let upperFirst :=
    den < 2 * rest || (2 * rest == den && (tie == .up || below % 2 == 1))
  if upperFirst then [upper, lower] else [lower, upper]

def readsBack (m : Magnitude) (d : Decimal) : Bool :=
  Binary64.ofDecimal false d == .finite false m

/-- The nearest decimal of the fewest digits that reads back, tried from one digit to seventeen. -/
def search (tie : Tie) (m : Magnitude) : Option Decimal :=
  (List.range 17).findSome? fun (n : Nat) =>
    (neighbours tie m.units (scale m.units - (n + 1))).find? (readsBack m)

/-- Every digit of the value is written should the search find nothing. -/
def shortest (tie : Tie) (m : Magnitude) : Decimal :=
  if m.units = 0 then ⟨0, 0⟩ else (search tie m).getD (exact m.units)

def padded (length n : Nat) : List Char :=
  let ds := Nat.toDigits 10 n
  List.replicate (length - ds.length) '0' ++ ds

/-- Positional text. A decimal with a negative exponent has that many places; any other has no
    point. -/
def positional (d : Decimal) : List Char :=
  match d.exponent with
  | .ofNat e => Nat.toDigits 10 (d.digits * 10 ^ e)
  | .negSucc e =>
    let ds := padded (e + 2) d.digits
    let whole := ds.length - (e + 1)
    ds.take whole ++ '.' :: ds.drop whole

end Decimal

theorem Binary64.nearest_mul_right (negative : Bool) (num den : Nat) {c : Nat} (pos : 0 < c) :
    Binary64.nearest negative (num * c) (den * c) = Binary64.nearest negative num den := by
  simp only [Binary64.nearest, nearestPosition_mul_right num den pos]

theorem Binary64.nearest_units (negative : Bool) (m : Magnitude) :
    Binary64.nearest negative m.units 1 = Binary64.finite negative m := by
  simp [Binary64.nearest, nearestPosition_units, m.isFinite]

namespace Decimal

theorem ofDecimal_neg (negative : Bool) (n k : Nat) :
    Binary64.ofDecimal negative ⟨n, -k⟩ = Binary64.nearest negative (n * unitsPerOne) (10 ^ k) := by
  cases k with
  | zero => simp [Binary64.ofDecimal, inUnits]
  | succ k => rfl

theorem ofDecimal_shift (negative : Bool) (n : Nat) (e : Int) :
    Binary64.ofDecimal negative ⟨n, e + 1⟩ = Binary64.ofDecimal negative ⟨n * 10, e⟩ := by
  by_cases small : e < 0
  · obtain ⟨k, rfl⟩ : ∃ k : Nat, e = -((k + 1 : Nat) : Int) := ⟨e.natAbs - 1, by omega⟩
    rw [show -((k + 1 : Nat) : Int) + 1 = -(k : Int) by omega, ofDecimal_neg, ofDecimal_neg,
      Nat.mul_right_comm, Nat.pow_succ, Binary64.nearest_mul_right _ _ _ (by decide)]
  · obtain ⟨k, rfl⟩ : ∃ k : Nat, e = k := ⟨e.toNat, by omega⟩
    have same : n * 10 ^ (k + 1) = n * 10 * 10 ^ k := by rw [Nat.pow_succ]; ac_rfl
    show Binary64.nearest negative (n * 10 ^ (k + 1) * unitsPerOne) 1 =
      Binary64.nearest negative (n * 10 * 10 ^ k * unitsPerOne) 1
    rw [same]

theorem ofDecimal_strip (negative : Bool) (fuel : Nat) (d : Decimal) :
    Binary64.ofDecimal negative (strip fuel d) = Binary64.ofDecimal negative d := by
  induction fuel generalizing d with
  | zero => rfl
  | succ fuel ih =>
    simp only [strip]
    split
    · next divides =>
      rw [ih, ofDecimal_shift, Nat.div_mul_cancel (Nat.dvd_of_mod_eq_zero divides.2)]
    · rfl

theorem ofDecimal_exact (negative : Bool) (m : Magnitude) :
    Binary64.ofDecimal negative (exact m.units) = .finite negative m := by
  have tens : m.units * 5 ^ unitExponent * unitsPerOne = m.units * 10 ^ unitExponent := by
    rw [unitsPerOne, Nat.mul_assoc, ← Nat.mul_pow]
  have one := Binary64.nearest_mul_right negative m.units 1 (c := 10 ^ unitExponent)
    (Nat.pow_pos (by decide))
  rw [Nat.one_mul] at one
  rw [exact, normal, ofDecimal_strip, ofDecimal_neg, tens, one, Binary64.nearest_units]

theorem readsBack_zero (m : Magnitude) (zero : m.units = 0) : readsBack m ⟨0, 0⟩ := by
  have nothing := ofDecimal_neg false 0 0
  rw [Nat.zero_mul] at nothing
  rw [readsBack, beq_iff_eq, ← Binary64.nearest_units, zero]
  exact nothing

theorem readsBack_search (tie : Tie) (m : Magnitude) {d : Decimal} (found : search tie m = some d) :
    readsBack m d := by
  obtain ⟨n, -, hit⟩ := List.exists_of_findSome?_eq_some found
  exact List.find?_some hit

theorem readsBack_shortest (tie : Tie) (m : Magnitude) : readsBack m (shortest tie m) := by
  unfold shortest
  split
  · next zero => exact readsBack_zero m zero
  · cases found : search tie m with
    | none =>
      rw [Option.getD_none, readsBack, ofDecimal_exact]
      exact beq_self_eq_true _
    | some d => exact readsBack_search tie m found

theorem ofDecimal_shortest (tie : Tie) (m : Magnitude) :
    Binary64.ofDecimal false (shortest tie m) = .finite false m :=
  beq_iff_eq.1 (readsBack_shortest tie m)

end Decimal

namespace Binary64

def signText (negative : Bool) : List Char := if negative then ['-'] else []

/-- The shortest positional text, with a half going up; whole numbers have no point. -/
def plainText : Binary64 → List Char
  | finite negative m => signText negative ++ (Decimal.shortest .up m).positional
  | infinite negative => signText negative ++ "inf".toList
  | nan => "NaN".toList

def plain (x : Binary64) : String := String.ofList x.plainText

end Binary64

end Commission
