/-!
Rounding a quotient of naturals to the nearest natural, a half going to the even neighbour.
`roundDiv_mul_right` says that only the ratio counts.
-/
namespace Commission

/-- `num / den` to the nearest natural; of two equally near ones the even one. -/
def roundDiv (num den : Nat) : Nat :=
  let q := num / den
  let r := num % den
  if 2 * r < den then q
  else if den < 2 * r then q + 1
  else if q % 2 = 0 then q else q + 1

theorem roundDiv_exact (n : Nat) {den : Nat} (pos : 0 < den) : roundDiv (n * den) den = n := by
  simp [roundDiv, Nat.mul_div_cancel n pos, pos]

theorem roundDiv_mul_right (num den : Nat) {c : Nat} (pos : 0 < c) :
    roundDiv (num * c) (den * c) = roundDiv num den := by
  have lt (a b : Nat) : a * c < b * c ↔ a < b := Nat.mul_lt_mul_right pos
  simp only [roundDiv, Nat.mul_div_mul_right num den pos, Nat.mul_mod_mul_right, ← Nat.mul_assoc,
    lt]

end Commission
