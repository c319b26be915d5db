import Commission.Number.Decimal

/-!
Decimals with exponents of any size. Far outside the range of double-precision numbers the answer
is known from the exponent alone, and no power of ten is computed there. `ofScientific_eq` says
that every decimal is nevertheless rounded to the nearest number.
-/
namespace Commission

theorem lt_pow_digitCount (n : Nat) : n < 10 ^ digitCount n :=
  (Nat.length_toDigits_le_iff (by decide) Nat.length_toDigits_pos).1 (Nat.le_refl _)

theorem pow_le_of_lt_digitCount {n k : Nat} (positive : n ≠ 0) (long : k < digitCount n) :
    10 ^ k ≤ n := by
  by_cases first : k = 0
  · subst first
    omega
  · refine Decidable.byContradiction fun small => ?_
    have short : digitCount n ≤ k :=
      (Nat.length_toDigits_le_iff (by decide) (Nat.pos_of_ne_zero first)).2 (by omega)
    omega

namespace Decimal

/-- A decimal other than zero is below ten to this power, and not below the power before it. -/
def height (d : Decimal) : Int := digitCount d.digits + d.exponent

/-- Decimals of a greater height are beyond every finite number. -/
@[irreducible] def greatestHeight : Nat := 309

@[irreducible] def vanishingPlaces : Nat := 324

end Decimal

namespace Binary64

def signedZero (negative : Bool) : Binary64 := nearest negative 0 1

def ofScientific (negative : Bool) (d : Decimal) : Binary64 :=
  if d.digits = 0 ∨ d.height + Decimal.vanishingPlaces ≤ 0 then signedZero negative
  else if Decimal.greatestHeight < d.height then infinite negative
  else ofDecimal negative d

theorem nearestPosition_eq_zero {num den : Nat} (small : 2 * num < den) :
    nearestPosition num den = 0 := by
  have none : num / den = 0 := Nat.div_eq_of_lt (by omega)
  have rest : num % den = num := Nat.mod_eq_of_lt (by omega)
  simp [nearestPosition, roundDiv, none, rest, small]

theorem nearest_small (negative : Bool) {num den : Nat} (small : 2 * num < den) :
    nearest negative num den = signedZero negative := by
  have nothing : nearestPosition 0 1 = 0 := nearestPosition_eq_zero (by decide)
  simp only [signedZero, nearest, nearestPosition_eq_zero small, nothing]

theorem le_roundDiv {n num den : Nat} (le : n ≤ num / den) : n ≤ roundDiv num den := by
  simp only [roundDiv]
  repeat' split
  all_goals omega

theorem finiteMagnitudes_le_nearestPosition {num den : Nat}
    (large : 2 ^ (1024 + unitExponent) ≤ num / den) :
    finiteMagnitudes ≤ nearestPosition num den := by
  have positive : num / den ≠ 0 := Nat.ne_of_gt (Nat.lt_of_lt_of_le (Nat.two_pow_pos _) large)
  have places : 1024 + unitExponent ≤ (num / den).log2 := (Nat.le_log2 positive).2 large
  have unit : unitExponent = 1074 := by unfold unitExponent; rfl
  have significand : 2 ^ 52 ≤ num / (den * 2 ^ ((num / den).log2 - 52)) := by
    rw [← Nat.div_div_eq_div_mul, Nat.le_div_iff_mul_le (Nat.two_pow_pos _), ← Nat.pow_add,
      show 52 + ((num / den).log2 - 52) = (num / den).log2 by omega]
    exact Nat.log2_self_le positive
  have := le_roundDiv significand
  simp only [nearestPosition, finiteMagnitudes]
  omega

theorem nearest_large (negative : Bool) {num den : Nat}
    (large : 2 ^ (1024 + unitExponent) ≤ num / den) :
    nearest negative num den = infinite negative := by
  have beyond := finiteMagnitudes_le_nearestPosition large
  simp only [nearest]
  split
  · omega
  · rfl

theorem two_mul_unitsPerOne_le : 2 * unitsPerOne ≤ 10 ^ Decimal.vanishingPlaces := by
  unfold unitsPerOne unitExponent Decimal.vanishingPlaces
  decide +kernel

theorem le_pow_greatestHeight :
    2 ^ (1024 + unitExponent) ≤ 10 ^ Decimal.greatestHeight * unitsPerOne := by
  unfold unitsPerOne unitExponent Decimal.greatestHeight
  decide +kernel

theorem ofDecimal_small (negative : Bool) {d : Decimal}
    (small : d.height + Decimal.vanishingPlaces ≤ 0) :
    ofDecimal negative d = signedZero negative := by
  obtain ⟨n, e⟩ := d
  simp only [Decimal.height] at small
  obtain ⟨k, rfl⟩ : ∃ k : Nat, e = -k := ⟨(-e).toNat, by omega⟩
  rw [Decimal.ofDecimal_neg]
  refine nearest_small negative ?_
  calc 2 * (n * unitsPerOne) = n * (2 * unitsPerOne) := Nat.mul_left_comm ..
    _ ≤ n * 10 ^ Decimal.vanishingPlaces := Nat.mul_le_mul_left _ two_mul_unitsPerOne_le
    _ < 10 ^ digitCount n * 10 ^ Decimal.vanishingPlaces :=
      Nat.mul_lt_mul_of_pos_right (lt_pow_digitCount n) (Nat.pow_pos (by decide))
    _ = 10 ^ (digitCount n + Decimal.vanishingPlaces) := (Nat.pow_add ..).symm
    _ ≤ 10 ^ k := Nat.pow_le_pow_right (by decide) (by omega)

theorem ofDecimal_large (negative : Bool) {d : Decimal} (positive : d.digits ≠ 0)
    (large : Decimal.greatestHeight < d.height) : ofDecimal negative d = infinite negative := by
  obtain ⟨n, e⟩ := d
  simp only [Decimal.height] at large positive
  refine nearest_large negative ?_
  cases e with
  | ofNat e =>
    rw [Int.ofNat_eq_natCast] at large
    have count : 0 < digitCount n := Nat.length_toDigits_pos
    have first := pow_le_of_lt_digitCount (k := digitCount n - 1) positive (by omega)
    have value : 10 ^ Decimal.greatestHeight ≤ n * 10 ^ e :=
      calc 10 ^ Decimal.greatestHeight
          ≤ 10 ^ (digitCount n - 1 + e) := Nat.pow_le_pow_right (by decide) (by omega)
        _ = 10 ^ (digitCount n - 1) * 10 ^ e := Nat.pow_add ..
        _ ≤ n * 10 ^ e := Nat.mul_le_mul_right _ first
    rw [Decimal.inUnits, Nat.div_one]
    exact Nat.le_trans le_pow_greatestHeight (Nat.mul_le_mul_right _ value)
  | negSucc e =>
    have first : 10 ^ (Decimal.greatestHeight + (e + 1)) ≤ n :=
      pow_le_of_lt_digitCount positive (by omega)
    have value : 2 ^ (1024 + unitExponent) * 10 ^ (e + 1) ≤ n * unitsPerOne :=
      calc 2 ^ (1024 + unitExponent) * 10 ^ (e + 1)
          ≤ 10 ^ Decimal.greatestHeight * unitsPerOne * 10 ^ (e + 1) :=
            Nat.mul_le_mul_right _ le_pow_greatestHeight
        _ = 10 ^ (Decimal.greatestHeight + (e + 1)) * unitsPerOne := by
            rw [Nat.pow_add 10 Decimal.greatestHeight, Nat.mul_right_comm]
        _ ≤ n * unitsPerOne := Nat.mul_le_mul_right _ first
    exact (Nat.le_div_iff_mul_le (Nat.pow_pos (by decide))).2 value

theorem ofDecimal_zero (negative : Bool) (e : Int) :
    ofDecimal negative ⟨0, e⟩ = signedZero negative := by
  refine nearest_small negative ?_
  cases e with
  | ofNat e => simp [Decimal.inUnits]
  | negSucc e =>
    have positive : 0 < 10 ^ (e + 1) := Nat.pow_pos (by decide)
    simpa only [Decimal.inUnits, Nat.zero_mul, Nat.mul_zero] using positive

theorem ofScientific_eq (negative : Bool) (d : Decimal) :
    ofScientific negative d = ofDecimal negative d := by
  obtain ⟨n, e⟩ := d
  unfold ofScientific
  split
  · next small =>
    rcases small with none | small
    · obtain rfl : n = 0 := none
      exact (ofDecimal_zero negative e).symm
    · exact (ofDecimal_small negative small).symm
  · next sized =>
    split
    · next large => exact (ofDecimal_large negative (fun none => sized (.inl none)) large).symm
    · rfl

end Binary64

end Commission
