import Commission.Proofs.Number.Numeral

/-!
Rounding keeps the order: the double nearest to an integer lies on no other side of a double than
the integer does. Integers of up to 53 bits are doubles themselves. Of all doubles only a NaN has no
place in the order.
-/
namespace Commission

theorem roundDiv_mono {num num' : Nat} (den : Nat) (le : num ≤ num') :
    roundDiv num den ≤ roundDiv num' den := by
  by_cases quotients : num / den = num' / den
  · have rest := Nat.div_add_mod num den
    have rest' := Nat.div_add_mod num' den
    have remainders : num % den ≤ num' % den := by
      rw [quotients] at rest
      omega
    simp only [roundDiv, quotients]
    repeat' split
    all_goals omega
  · have smaller : num / den ≤ num' / den := Nat.div_le_div_right le
    have upper := roundDiv_le num den
    have lower : num / den + 1 ≤ roundDiv num' den := Binary64.le_roundDiv (by omega)
    omega

theorem log2_mono {n n' : Nat} (le : n ≤ n') : n.log2 ≤ n'.log2 := by
  by_cases zero : n = 0
  · simp [zero]
  · have lower := Nat.log2_self_le zero
    exact (Nat.le_log2 (by omega)).mpr (by omega)

theorem nearestPosition_mono {num num' : Nat} (le : num ≤ num') :
    nearestPosition num 1 ≤ nearestPosition num' 1 := by
  obtain ⟨upper, -⟩ := significand_bounds num
  obtain ⟨-, lower⟩ := significand_bounds num'
  have shifts : num.log2 - 52 ≤ num'.log2 - 52 := by
    have := log2_mono le
    omega
  simp only [nearestPosition, Nat.div_one, Nat.one_mul]
  by_cases same : num.log2 - 52 = num'.log2 - 52
  · have := roundDiv_mono (2 ^ (num'.log2 - 52)) le
    rw [same]
    omega
  · -- In a higher binade the significand has all its 53 bits.
    omega

namespace Magnitude

theorem position_le_of_units {m m' : Magnitude} (le : m.units ≤ m'.units) :
    m.position ≤ m'.position := by
  have := nearestPosition_mono le
  rwa [nearestPosition_units, nearestPosition_units] at this

theorem units_le_iff {m m' : Magnitude} : m.units ≤ m'.units ↔ m.position ≤ m'.position := by
  constructor
  · exact position_le_of_units
  · intro le
    refine Nat.le_of_not_lt fun less => ?_
    have ge : m'.position ≤ m.position := position_le_of_units (by omega)
    obtain ⟨position, bound⟩ := m
    obtain ⟨position', bound'⟩ := m'
    obtain rfl : position = position' := by
      simp only at le ge
      omega
    omega

theorem units_nearest_le {num : Nat} {r : Magnitude} (rounded : nearestPosition num 1 = r.position)
    (m : Magnitude) :
    (num ≤ m.units → r.units ≤ m.units) ∧ (m.units ≤ num → m.units ≤ r.units) := by
  constructor
  · intro le
    have := nearestPosition_mono le
    rw [rounded, nearestPosition_units] at this
    exact units_le_iff.mpr this
  · intro le
    have := nearestPosition_mono le
    rw [rounded, nearestPosition_units] at this
    exact units_le_iff.mpr this

theorem units_of_dvd {num : Nat} {r : Magnitude} (rounded : nearestPosition num 1 = r.position)
    (divides : 2 ^ (num.log2 - 52) ∣ num) : r.units = num := by
  obtain ⟨upper, lower⟩ := significand_bounds num
  simp only [nearestPosition, Nat.div_one, Nat.one_mul] at rounded
  obtain ⟨q, exact⟩ := divides
  have significand : roundDiv num (2 ^ (num.log2 - 52)) = q := by
    conv => lhs; arg 1; rw [exact, Nat.mul_comm]
    exact roundDiv_exact q (Nat.two_pow_pos _)
  rw [units_of_position rounded.symm upper lower, significand, Nat.mul_comm, ← exact]

theorem dvd_of_small {k : Nat} (small : k ≤ 2 ^ 53) :
    2 ^ ((k * unitsPerOne).log2 - 52) ∣ k * unitsPerOne := by
  unfold unitsPerOne
  by_cases top : k = 2 ^ 53
  · rw [top, ← Nat.pow_add, Nat.log2_two_pow]
    exact Nat.pow_dvd_pow 2 (by omega)
  · have bound : k * 2 ^ unitExponent < 2 ^ (53 + unitExponent) := by
      rw [Nat.pow_add]
      exact Nat.mul_lt_mul_of_pos_right (by omega) (Nat.two_pow_pos _)
    have places : (k * 2 ^ unitExponent).log2 < 53 + unitExponent := by
      by_cases zero : k * 2 ^ unitExponent = 0
      · rw [zero, Nat.log2_zero]
        omega
      · exact (Nat.log2_lt zero).mpr bound
    exact Nat.dvd_mul_left_of_dvd (Nat.pow_dvd_pow 2 (by omega)) k

end Magnitude

namespace Binary64

theorem ofInt_eq_finite (n : Int64) :
    ∃ r : Magnitude, ofInt n.toInt = finite (n.toInt < 0) r ∧
      nearestPosition (n.toInt.natAbs * unitsPerOne) 1 = r.position := by
  have finite := isFinite_ofInt n
  rw [ofInt, nearest] at finite ⊢
  split
  · next bound => exact ⟨⟨_, bound⟩, rfl, rfl⟩
  · next large =>
    rw [dif_neg large] at finite
    contradiction

theorem mul_eq_signed (n : Int) (k : Nat) : n * k = signed (n < 0) (n.natAbs * k) := by
  by_cases below : n < 0
  · have magnitude : n = -(n.natAbs : Int) := by omega
    simp only [signed, below, decide_true, if_true, Int.natCast_mul, ← Int.neg_mul, ← magnitude]
  · have magnitude : n = (n.natAbs : Int) := by omega
    simp only [signed, below, decide_false, Bool.false_eq_true, if_false, Int.natCast_mul,
      ← magnitude]

theorem ordinate_ofInt (n : Int64) {negative : Bool} {m : Magnitude} {o : Int}
    (ordinate : (ofInt n.toInt).ordinate? = some o) :
    (n.toInt * unitsPerOne ≤ signed negative m.units → o ≤ signed negative m.units) ∧
      (signed negative m.units ≤ n.toInt * unitsPerOne → signed negative m.units ≤ o) := by
  obtain ⟨r, rounded, position⟩ := ofInt_eq_finite n
  obtain ⟨upper, lower⟩ := Magnitude.units_nearest_le position m
  rw [rounded] at ordinate
  obtain rfl := Option.some.inj ordinate
  rw [mul_eq_signed]
  generalize n.toInt.natAbs * unitsPerOne = k at upper lower
  cases negative <;> by_cases below : n.toInt < 0 <;> simp only [signed, below, decide_true,
    decide_false, if_true, if_false, Bool.false_eq_true] <;> omega

theorem ordinate_ofInt_of_small {n : Int64} (small : n.toInt.natAbs ≤ 2 ^ 53) :
    (ofInt n.toInt).ordinate? = some (n.toInt * unitsPerOne) := by
  obtain ⟨r, rounded, position⟩ := ofInt_eq_finite n
  rw [rounded, ordinate?, Magnitude.units_of_dvd position (Magnitude.dvd_of_small small),
    mul_eq_signed]

/-! ## Comparing two doubles -/

theorem compare?_swap (x y : Binary64) : y.compare? x = (x.compare? y).map Ordering.swap := by
  unfold compare?
  cases x.ordinate? with
  | none => cases y.ordinate? <;> rfl
  | some i =>
    cases y.ordinate? with
    | none => rfl
    | some j => exact congrArg some Std.OrientedOrd.eq_swap

theorem exists_ordinate {x : Binary64} (number : x.isNaN = false) : ∃ i, x.ordinate? = some i := by
  cases x with
  | nan => contradiction
  | _ => exact ⟨_, rfl⟩

theorem eq_self_iff {x : Binary64} : x.eq x = true ↔ x.isNaN = false := by
  constructor
  · intro same
    cases x with
    | nan => contradiction
    | _ => rfl
  · intro number
    obtain ⟨i, place⟩ := exists_ordinate number
    simp [eq, compare?, place]

end Binary64

end Commission
