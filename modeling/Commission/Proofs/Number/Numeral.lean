import Commission.Number.Scientific

/-!
The text of a number with a fraction. Its shortest decimal has a negative exponent, because what is
nearest to a whole number is whole; so the text has a point, with a numeral before it.
-/
namespace Commission

/-- Decimal digits of a natural: a leading zero stands alone. -/
inductive Numeral : List Char → Prop where
  | zero : Numeral ['0']
  | positive {c : Char} {cs : List Char} (lead : c ≠ '0') (digits : ∀ d ∈ c :: cs, d.isDigit) :
      Numeral (c :: cs)

theorem isDigit_of_mem_toDigits {n : Nat} {c : Char} (mem : c ∈ Nat.toDigits 10 n) : c.isDigit :=
  Nat.isDigit_of_mem_toDigits (by decide) (by decide) mem

theorem digitChar_ne_zero {n : Nat} (positive : 0 < n) (small : n < 10) : n.digitChar ≠ '0' := by
  have all : ∀ k < 10, 0 < k → k.digitChar ≠ '0' := by decide
  exact all n small positive

theorem toDigits_lead {n : Nat} (positive : 0 < n) :
    ∃ c cs, Nat.toDigits 10 n = c :: cs ∧ c ≠ '0' := by
  induction n using Nat.strongRecOn with
  | ind n ih =>
    by_cases small : n < 10
    · exact ⟨_, [], Nat.toDigits_of_lt_base small, digitChar_ne_zero positive small⟩
    · obtain ⟨c, cs, earlier, lead⟩ := ih (n / 10) (by omega) (by omega)
      refine ⟨c, cs ++ [(n % 10).digitChar], ?_, lead⟩
      rw [Nat.toDigits_of_base_le (by decide) (by omega), earlier, List.cons_append]

theorem numeral_take_toDigits {n : Nat} (positive : 0 < n) (k : Nat) :
    Numeral ((Nat.toDigits 10 n).take (k + 1)) := by
  obtain ⟨c, cs, same, lead⟩ := toDigits_lead positive
  rw [same, List.take_succ_cons]
  refine .positive lead fun d mem => isDigit_of_mem_toDigits (n := n) ?_
  rw [same]
  rcases List.mem_cons.mp mem with rfl | mem
  · simp
  · simp [List.mem_of_mem_take mem]

theorem numeral_toDigits (n : Nat) : Numeral (Nat.toDigits 10 n) := by
  by_cases zero : n = 0
  · subst zero
    rw [Nat.toDigits_zero]
    exact .zero
  · have all := numeral_take_toDigits (n := n) (by omega) (Nat.toDigits 10 n).length
    rwa [List.take_of_length_le (by omega)] at all

theorem numeral_head {ds : List Char} (numeral : Numeral ds) :
    ∃ c cs, ds = c :: cs ∧ c.isDigit := by
  cases numeral with
  | zero => exact ⟨'0', [], rfl, by decide⟩
  | positive lead digits => exact ⟨_, _, rfl, digits _ (by simp)⟩

theorem numeral_digits {ds : List Char} (numeral : Numeral ds) : ∀ c ∈ ds, c.isDigit := by
  cases numeral with
  | zero => simp
  | positive lead digits => exact digits

/-! ## Whole numbers -/

theorem roundDiv_le (num den : Nat) : roundDiv num den ≤ num / den + 1 := by
  simp only [roundDiv]
  repeat' split
  all_goals omega

/-- A significand with its shift is a position, also where it rounds up to the next binade. -/
theorem Magnitude.units_of_position {m : Magnitude} {q shift : Nat}
    (position : m.position = q + shift * 2 ^ 52) (upper : q ≤ 2 ^ 53)
    (lower : shift = 0 ∨ 2 ^ 52 ≤ q) : m.units = q * 2 ^ shift := by
  simp only [Magnitude.units, position]
  split
  · next small =>
    obtain rfl : shift = 0 := by omega
    simp
  · by_cases next : q = 2 ^ 53
    · subst next
      rw [show 2 ^ 53 + shift * 2 ^ 52 = 2 ^ 52 * (shift + 2) by omega, Nat.mul_mod_right,
        Nat.mul_div_cancel_left _ (by decide), show shift + 2 - 1 = shift + 1 by omega,
        Nat.pow_succ]
      omega
    · rw [show (q + shift * 2 ^ 52) % 2 ^ 52 = q - 2 ^ 52 by omega,
        show (q + shift * 2 ^ 52) / 2 ^ 52 - 1 = shift by omega,
        show 2 ^ 52 + (q - 2 ^ 52) = q by omega]

theorem significand_bounds (num : Nat) :
    let shift := num.log2 - 52
    roundDiv num (2 ^ shift) ≤ 2 ^ 53 ∧ (shift = 0 ∨ 2 ^ 52 ≤ roundDiv num (2 ^ shift)) := by
  intro shift
  have below : num < 2 ^ (53 + shift) :=
    Nat.lt_of_lt_of_le Nat.lt_log2_self (Nat.pow_le_pow_right (by decide) (by omega))
  constructor
  · have quotient : num / 2 ^ shift < 2 ^ 53 := by
      rw [Nat.div_lt_iff_lt_mul (Nat.two_pow_pos _), ← Nat.pow_add]
      exact below
    have := roundDiv_le num (2 ^ shift)
    omega
  · by_cases zero : shift = 0
    · exact .inl zero
    · right
      have positive : num ≠ 0 := by
        rintro rfl
        exact zero rfl
      apply Binary64.le_roundDiv
      rw [Nat.le_div_iff_mul_le (Nat.two_pow_pos _), ← Nat.pow_add,
        show 52 + shift = num.log2 by omega]
      exact Nat.log2_self_le positive

theorem dvd_units_of_nearest {m : Magnitude} {n : Nat}
    (position : nearestPosition (n * unitsPerOne) 1 = m.position) : unitsPerOne ∣ m.units := by
  obtain ⟨upper, lower⟩ := significand_bounds (n * unitsPerOne)
  simp only [nearestPosition, Nat.div_one, Nat.one_mul] at position
  have units := Magnitude.units_of_position position.symm upper lower
  rw [units]
  generalize (n * unitsPerOne).log2 - 52 = shift
  unfold unitsPerOne
  by_cases coarse : unitExponent ≤ shift
  · exact Nat.dvd_mul_left_of_dvd (Nat.pow_dvd_pow 2 coarse) _
  -- a smaller shift divides the number of units, so nothing is rounded
  · have split : n * 2 ^ unitExponent = n * 2 ^ (unitExponent - shift) * 2 ^ shift := by
      rw [Nat.mul_assoc, ← Nat.pow_add, Nat.sub_add_cancel (by omega)]
    rw [split, roundDiv_exact _ (Nat.two_pow_pos shift), ← split]
    exact Nat.dvd_mul_left ..

namespace Binary64

theorem nearest_eq_finite_iff (negative : Bool) (num den : Nat) (m : Magnitude) :
    nearest negative num den = finite negative m ↔ nearestPosition num den = m.position := by
  obtain ⟨position, bound⟩ := m
  simp only [nearest]
  split
  · simp
  · next large =>
    constructor
    · intro h
      contradiction
    · intro h
      exact absurd bound (h ▸ large)

theorem nearestPosition_lt {num : Nat} (small : num < 2 ^ (64 + unitExponent)) :
    nearestPosition num 1 < finiteMagnitudes := by
  have places : num.log2 < 64 + unitExponent := by
    by_cases zero : num = 0
    · rw [zero, Nat.log2_zero]
      omega
    · exact (Nat.log2_lt zero).mpr small
  have unit : unitExponent = 1074 := by unfold unitExponent; rfl
  obtain ⟨significand, -⟩ := significand_bounds num
  simp only [nearestPosition, Nat.div_one, Nat.one_mul, finiteMagnitudes]
  omega

/-- Integers of 64 bits lie far within the range of the finite numbers. -/
theorem isFinite_ofInt (n : Int64) : (ofInt n.toInt).isFinite := by
  have width : n.toInt.natAbs < 2 ^ 64 := by
    have := n.le_toInt
    have := n.toInt_lt
    omega
  have units : n.toInt.natAbs * unitsPerOne < 2 ^ (64 + unitExponent) := by
    have same : unitsPerOne = 2 ^ unitExponent := by unfold unitsPerOne; rfl
    rw [Nat.pow_add, ← same]
    exact Nat.mul_lt_mul_of_pos_right width unitsPerOne_pos
  rw [ofInt, nearest]
  simp only [nearestPosition_lt units, dite_true]
  rfl

theorem ofDecimal_sign {negative : Bool} {d : Decimal} {m : Magnitude}
    (h : ofDecimal false d = finite false m) : ofDecimal negative d = finite negative m := by
  rw [ofDecimal, nearest_eq_finite_iff] at h ⊢
  exact h

end Binary64

namespace Decimal

theorem exponent_of_fraction (tie : Tie) {m : Magnitude} (fraction : m.units % unitsPerOne ≠ 0) :
    ∃ e : Nat, (shortest tie m).exponent = .negSucc e := by
  have back := ofDecimal_shortest tie m
  cases exponent : (shortest tie m).exponent with
  | negSucc e => exact ⟨e, rfl⟩
  | ofNat e =>
    rw [Binary64.ofDecimal, inUnits, exponent, Binary64.nearest_eq_finite_iff] at back
    exact absurd (Nat.mod_eq_zero_of_dvd (dvd_units_of_nearest back)) fraction

/-! ## Positional text -/

theorem ofDigitChars_padded (length n : Nat) : Nat.ofDigitChars 10 (padded length n) 0 = n := by
  rw [padded, Nat.ofDigitChars_append, Nat.ofDigitChars_replicate_zero, Nat.mul_zero,
    Nat.ofDigitChars_ten_toDigits]

theorem length_padded (length n : Nat) : length ≤ (padded length n).length := by
  simp only [padded, List.length_append, List.length_replicate]
  omega

theorem isDigit_of_mem_padded {length n : Nat} {c : Char} (mem : c ∈ padded length n) :
    c.isDigit := by
  rcases List.mem_append.mp mem with mem | mem
  · obtain rfl := (List.mem_replicate.mp mem).2
    decide
  · exact isDigit_of_mem_toDigits mem

theorem numeral_take_padded {places : Nat} (some : 0 < places) (n : Nat) :
    Numeral ((padded (places + 1) n).take ((padded (places + 1) n).length - places)) := by
  have long := length_padded (places + 1) n
  by_cases short : (Nat.toDigits 10 n).length ≤ places
  · have zeros : places + 1 - (Nat.toDigits 10 n).length =
        places - (Nat.toDigits 10 n).length + 1 := by omega
    have one : (padded (places + 1) n).length - places = 1 := by
      simp only [padded, List.length_append, List.length_replicate]
      omega
    rw [one, padded, zeros, List.replicate_succ, List.cons_append, List.take_succ_cons,
      List.take_zero]
    exact .zero
  · have bare : padded (places + 1) n = Nat.toDigits 10 n := by
      simp [padded, show places + 1 - (Nat.toDigits 10 n).length = 0 by omega]
    have positive : 0 < n := by
      apply Nat.pos_of_ne_zero
      rintro rfl
      simp only [Nat.toDigits_zero, List.length_singleton] at short
      omega
    obtain ⟨k, more⟩ : ∃ k, (Nat.toDigits 10 n).length - places = k + 1 :=
      ⟨(Nat.toDigits 10 n).length - places - 1, by omega⟩
    rw [bare, more]
    exact numeral_take_toDigits positive k

theorem positional_parts {d : Decimal} {e : Nat} (exponent : d.exponent = .negSucc e) :
    ∃ whole fraction, d.positional = whole ++ '.' :: fraction ∧ Numeral whole ∧
      fraction ≠ [] ∧ (∀ c ∈ fraction, c.isDigit) ∧ ofDigits whole fraction = d := by
  obtain ⟨n, exp⟩ := d
  obtain rfl : exp = .negSucc e := exponent
  have long := length_padded (e + 2) n
  have places : ((padded (e + 2) n).drop ((padded (e + 2) n).length - (e + 1))).length = e + 1 := by
    rw [List.length_drop]
    omega
  refine ⟨_, _, rfl, numeral_take_padded (Nat.succ_pos e) n, ?_, ?_, ?_⟩
  · intro empty
    rw [empty] at places
    contradiction
  · intro c mem
    exact isDigit_of_mem_padded (List.mem_of_mem_drop mem)
  · rw [ofDigits, List.take_append_drop, ofDigitChars_padded, places]
    rfl

end Decimal

end Commission
