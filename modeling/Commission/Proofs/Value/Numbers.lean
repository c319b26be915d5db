import Commission.Proofs.Text.Scanning
import Commission.Proofs.Value.Grammar
import Commission.Value.Reading

/-!
Reading numbers. The reader takes a number of the grammar off the front of a text if neither a digit
nor a point follows, and takes off nothing else. So the text of a number is read back.
-/
namespace Commission

namespace Binary64

theorem ofDecimal_tenths (negative : Bool) (n : Nat) :
    ofDecimal negative ⟨n * 10, -1⟩ = nearest negative (n * unitsPerOne) 1 :=
  (Decimal.ofDecimal_shift negative n (-1)).symm.trans (Decimal.ofDecimal_neg negative n 0)

theorem ofDigits_tenths (n : Nat) : Decimal.ofDigits (Nat.toDigits 10 n) ['0'] = ⟨n * 10, -1⟩ := by
  have digits : Nat.ofDigitChars 10 (Nat.toDigits 10 n ++ ['0']) 0 = n * 10 := by
    rw [Nat.ofDigitChars_append, Nat.ofDigitChars_ten_toDigits]
    simp [Nat.ofDigitChars_cons, Nat.mul_comm]
  rw [Decimal.ofDigits, digits]
  rfl

theorem ruleText_parts (negative : Bool) (m : Magnitude) :
    ∃ whole fraction,
      (finite negative m).ruleText = signText negative ++ (whole ++ '.' :: fraction) ∧
      Numeral whole ∧ fraction ≠ [] ∧ (∀ c ∈ fraction, c.isDigit) ∧
      ofDecimal negative (.ofDigits whole fraction) = finite negative m := by
  by_cases whole : m.units % unitsPerOne = 0
  · refine ⟨Nat.toDigits 10 (m.units / unitsPerOne), ['0'], ?_, numeral_toDigits _, ?_, ?_, ?_⟩
    · simp [ruleText, whole]
    · simp
    · simp
    · rw [ofDigits_tenths, ofDecimal_tenths, Nat.div_mul_cancel (Nat.dvd_of_mod_eq_zero whole),
        nearest_units]
  · obtain ⟨e, exponent⟩ := Decimal.exponent_of_fraction .up whole
    obtain ⟨before, after, text, numeral, filled, digits, value⟩ :=
      Decimal.positional_parts exponent
    refine ⟨before, after, ?_, numeral, filled, digits, ?_⟩
    · simp [ruleText, whole, plainText, text]
    · rw [value]
      exact ofDecimal_sign (Decimal.ofDecimal_shortest .up m)

end Binary64

namespace Reading

open Condition.Grammar

theorem sign_append {before ds : List Char} {negative : Bool} (signed : Sign before negative)
    (numeral : Numeral ds) (rest : List Char) :
    sign (before ++ (ds ++ rest)) = (negative, ds ++ rest) := by
  cases signed with
  | plus => rfl
  | minus => rfl
  | none =>
    obtain ⟨c, cs, rfl, digit⟩ := numeral_head numeral
    have differs : c ≠ '-' ∧ c ≠ '+' := by
      constructor <;> rintro rfl <;> contradiction
    show sign (c :: (cs ++ rest)) = (false, c :: (cs ++ rest))
    rw [sign]
    · intro tail same
      exact differs.1 (List.cons.inj same).1
    · intro tail same
      exact differs.2 (List.cons.inj same).1

theorem sign_of_signText (negative : Bool) : Sign (Binary64.signText negative) negative := by
  cases negative with
  | true => exact .minus
  | false => exact .none

theorem whole?_append {ds rest : List Char} (numeral : Numeral ds)
    (stop : ∀ c ∈ rest.head?, c.isDigit = false) : whole? (ds ++ rest) = some (ds, rest) := by
  cases numeral with
  | zero => rfl
  | @positive c cs lead digits =>
    have later : ∀ d ∈ cs, d.isDigit := fun d mem => digits d (by simp [mem])
    simp [whole?, lead, digits c (by simp), Text.takeWhile_append_stop later stop,
      Text.dropWhile_append_stop later stop]

theorem fraction?_append {fs rest : List Char} (filled : fs ≠ []) (digits : ∀ c ∈ fs, c.isDigit)
    (stop : ∀ c ∈ rest.head?, c.isDigit = false) :
    fraction? ('.' :: (fs ++ rest)) = some (fs, rest) := by
  simp [fraction?, Text.takeWhile_append_stop digits stop, Text.dropWhile_append_stop digits stop,
    filled]

theorem fraction?_none {rest : List Char} (stop : ∀ c ∈ rest.head?, c ≠ '.') :
    fraction? rest = none := by
  rw [fraction?]
  rintro cs rfl
  exact stop '.' (by simp) rfl

theorem int64?_toInt (n : Int64) : int64? n.toInt = some n := by
  rw [int64?, if_pos ⟨n.minValue_le_toInt, n.toInt_le⟩, Int64.ofInt_toInt]

theorem signed_natAbs (n : Int) : Binary64.signed (n < 0) n.natAbs = n := by
  by_cases negative : n < 0
  · simp only [Binary64.signed, negative, decide_true, if_true]
    omega
  · simp only [Binary64.signed, negative, decide_false, Bool.false_eq_true, if_false]
    omega

theorem number?_integer {before ds rest : List Char} {negative : Bool} {n : Int64}
    (signed : Sign before negative) (numeral : Numeral ds)
    (value : n.toInt = Binary64.signed negative (Nat.ofDigitChars 10 ds 0))
    (noDigit : ∀ c ∈ rest.head?, c.isDigit = false) (noPoint : ∀ c ∈ rest.head?, c ≠ '.') :
    number? (before ++ (ds ++ rest)) = some (.int n, rest) := by
  rw [number?, sign_append signed numeral]
  simp only [whole?_append numeral noDigit, fraction?_none noPoint, ← value, int64?_toInt,
    Option.bind_eq_bind, Option.bind_some]
  rfl

theorem number?_float {before whole fraction rest : List Char} {negative : Bool}
    (signed : Sign before negative) (numeral : Numeral whole) (filled : fraction ≠ [])
    (digits : ∀ c ∈ fraction, c.isDigit) (noDigit : ∀ c ∈ rest.head?, c.isDigit = false) :
    number? (before ++ (whole ++ '.' :: (fraction ++ rest))) =
      some (.float (.ofDecimal negative (.ofDigits whole fraction)), rest) := by
  have point : ∀ c ∈ ('.' :: (fraction ++ rest)).head?, c.isDigit = false :=
    Text.stop_cons (by decide) _
  rw [number?, sign_append signed numeral]
  simp only [whole?_append numeral point, fraction?_append filled digits noDigit,
    Option.bind_eq_bind, Option.bind_some]
  rfl

def Ends (rest : List Char) : Prop := ∀ c ∈ rest.head?, c = ',' ∨ c = ']'

theorem stops_of_ends {p : Char → Bool} (comma : p ',' = false) (bracket : p ']' = false)
    {rest : List Char} (ends : Ends rest) : ∀ c ∈ rest.head?, p c = false := by
  intro c mem
  rcases ends c mem with rfl | rfl
  · exact comma
  · exact bracket

theorem number?_integerText (n : Int64) {rest : List Char} (ends : Ends rest) :
    number? (integerText n.toInt ++ rest) = some (.int n, rest) := by
  have noDigit := stops_of_ends (p := Char.isDigit) (by decide) (by decide) ends
  have noPoint : ∀ c ∈ rest.head?, c ≠ '.' := by
    intro c mem
    rcases ends c mem with rfl | rfl <;> decide
  rw [integerText, List.append_assoc]
  refine number?_integer (sign_of_signText _) (numeral_toDigits _) ?_ noDigit noPoint
  rw [Nat.ofDigitChars_ten_toDigits, signed_natAbs]

theorem number?_ruleText (negative : Bool) (m : Magnitude) {rest : List Char} (ends : Ends rest) :
    number? ((Binary64.finite negative m).ruleText ++ rest) =
      some (.float (.finite negative m), rest) := by
  obtain ⟨whole, fraction, text, numeral, filled, digits, value⟩ :=
    Binary64.ruleText_parts negative m
  have noDigit := stops_of_ends (p := Char.isDigit) (by decide) (by decide) ends
  rw [text, List.append_assoc, List.append_assoc, List.cons_append,
    number?_float (sign_of_signText negative) numeral filled digits noDigit, value]

theorem number?_none {c : Char} (noDigit : c.isDigit = false) (noSign : c ≠ '-' ∧ c ≠ '+')
    (rest : List Char) : number? (c :: rest) = none := by
  have noZero : c ≠ '0' := by
    rintro rfl
    contradiction
  have unsigned : sign (c :: rest) = (false, c :: rest) := by
    rw [sign]
    · intro tail same
      exact noSign.1 (List.cons.inj same).1
    · intro tail same
      exact noSign.2 (List.cons.inj same).1
  simp [number?, unsigned, whole?, noZero, noDigit]

end Reading

end Commission
