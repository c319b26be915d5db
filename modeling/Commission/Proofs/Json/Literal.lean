import Commission.Json.Reading
import Commission.Proofs.Value.Numbers

/-!
Numbers in JSON texts. A literal is read back from its text as it was spelled, and the literals that
are written for integers and for finite floats stand for these numbers and for their kind. Main
statements: `literal?_text`, `tree_ofInt` and `ofFloat?_finite`.
-/
namespace Commission.Json

def Ends (rest : List Char) : Prop := ∀ c ∈ rest.head?, c = ',' ∨ c = ']' ∨ c = '\x7d'

theorem ends_nil : Ends [] := by simp [Ends]

theorem ends_cons {c : Char} (closes : c = ',' ∨ c = ']' ∨ c = '\x7d') (rest : List Char) :
    Ends (c :: rest) := by
  intro d mem
  obtain rfl : c = d := by simpa using mem
  exact closes

theorem Ends.stops {p : Char → Bool} {rest : List Char} (ends : Ends rest)
    (others : [',', ']', '\x7d'].all fun c => !p c) : ∀ c ∈ rest.head?, p c = false := by
  intro c mem
  have all := List.all_eq_true.mp others c (by simpa using ends c mem)
  simpa using all

namespace Literal

structure Digits (ds : List Char) : Prop where
  filled : ds ≠ []
  digits : ∀ c ∈ ds, c.isDigit

structure WellFormed (l : Literal) : Prop where
  whole : Numeral l.whole
  fraction : ∀ ds ∈ l.fraction, Digits ds
  exponent : ∀ e ∈ l.exponent, Digits e.2

def fractionText : Option (List Char) → List Char
  | none => []
  | some ds => '.' :: ds

def exponentText : Option (Bool × List Char) → List Char
  | none => []
  | some (negative, ds) => 'e' :: (if negative then '-' else '+') :: ds

theorem text_eq (l : Literal) :
    l.text = Binary64.signText l.negative ++
      (l.whole ++ (fractionText l.fraction ++ exponentText l.exponent)) := by
  obtain ⟨negative, whole, fraction, exponent⟩ := l
  cases fraction <;> cases exponent <;> simp [text, fractionText, exponentText]

end Literal

open Literal

theorem Literal.pointed_text {l : Literal}
    (pointed : (l.fraction.isSome || l.exponent.isSome) = true) :
    ∃ c ∈ l.text, c = '.' ∨ c = 'e' := by
  rw [text_eq]
  obtain ⟨negative, whole, fraction, exponent⟩ := l
  cases fraction with
  | some ds => exact ⟨'.', by simp [fractionText], .inl rfl⟩
  | none =>
    cases exponent with
    | some e => exact ⟨'e', by simp [exponentText], .inr rfl⟩
    | none => contradiction

/-! ## Reading a literal -/

theorem digits?_append {ds rest : List Char} (run : Digits ds)
    (stop : ∀ c ∈ rest.head?, c.isDigit = false) : digits? (ds ++ rest) = some (ds, rest) := by
  simp [digits?, Text.takeWhile_append_stop run.digits stop,
    Text.dropWhile_append_stop run.digits stop, run.filled]

theorem fraction?_append {fraction : Option (List Char)} (runs : ∀ ds ∈ fraction, Digits ds)
    {rest : List Char} (noDigit : ∀ c ∈ rest.head?, c.isDigit = false)
    (noPoint : ∀ c ∈ rest.head?, c ≠ '.') :
    fraction? (fractionText fraction ++ rest) = some (fraction, rest) := by
  cases fraction with
  | none =>
    rw [fractionText, List.nil_append, fraction?]
    rintro tail rfl
    exact noPoint '.' (by simp) rfl
  | some ds =>
    have read := digits?_append (runs ds rfl) noDigit
    simp [fractionText, fraction?, read]

theorem exponent?_append {exponent : Option (Bool × List Char)} (runs : ∀ e ∈ exponent, Digits e.2)
    {rest : List Char} (ends : Ends rest) :
    exponent? (exponentText exponent ++ rest) = some (exponent, rest) := by
  cases exponent with
  | none =>
    cases rest with
    | nil => rfl
    | cons c rest =>
      have plain : ¬ (c = 'e' ∨ c = 'E') := by
        rcases ends c (by simp) with rfl | rfl | rfl <;> decide
      simp [exponentText, exponent?, plain]
  | some e =>
    obtain ⟨negative, ds⟩ := e
    have run : Digits ds := runs (negative, ds) rfl
    have read := digits?_append run (ends.stops (p := Char.isDigit) (by decide))
    cases negative <;> simp [exponentText, exponent?, Reading.sign, read]

theorem exponent_stops {p : Char → Bool} (letter : p 'e' = false)
    (others : [',', ']', '\x7d'].all fun c => !p c) (exponent : Option (Bool × List Char))
    {rest : List Char} (ends : Ends rest) :
    ∀ c ∈ (exponentText exponent ++ rest).head?, p c = false := by
  cases exponent with
  | none => exact ends.stops others
  | some e => exact Text.stop_cons letter _

theorem fraction_stops {p : Char → Bool} (point : p '.' = false) (letter : p 'e' = false)
    (others : [',', ']', '\x7d'].all fun c => !p c) (l : Literal) {rest : List Char}
    (ends : Ends rest) :
    ∀ c ∈ (fractionText l.fraction ++ (exponentText l.exponent ++ rest)).head?, p c = false := by
  cases l.fraction with
  | none => exact exponent_stops letter others l.exponent ends
  | some ds => exact Text.stop_cons point _

theorem minus_signText {whole : List Char} (numeral : Numeral whole) (negative : Bool)
    (rest : List Char) :
    minus (Binary64.signText negative ++ (whole ++ rest)) = (negative, whole ++ rest) := by
  cases negative with
  | true => rfl
  | false =>
    obtain ⟨c, cs, rfl, digit⟩ := numeral_head numeral
    rw [Binary64.signText, if_neg (by decide), List.nil_append, List.cons_append, minus]
    rintro tail same
    obtain rfl := (List.cons.inj same).1
    contradiction

theorem literal?_text {l : Literal} (formed : l.WellFormed) {rest : List Char} (ends : Ends rest) :
    literal? (l.text ++ rest) = some (l, rest) := by
  have noDigit := fraction_stops (p := Char.isDigit) (by decide) (by decide) (by decide) l ends
  have whole := Reading.whole?_append formed.whole noDigit
  have alone : ¬ (fractionText l.fraction ++ (exponentText l.exponent ++ rest)).head?.any
      Char.isDigit := by
    rw [Bool.not_eq_true, Option.any_eq_false]
    intro c mem
    simp [noDigit c mem]
  have noPoint : ∀ c ∈ (exponentText l.exponent ++ rest).head?, c ≠ '.' := by
    intro c mem
    have other := exponent_stops (p := (· == '.')) (by decide) (by decide) l.exponent ends c mem
    simpa using other
  have fraction := fraction?_append formed.fraction
    (exponent_stops (p := Char.isDigit) (by decide) (by decide) l.exponent ends) noPoint
  have exponent := exponent?_append formed.exponent ends
  rw [text_eq, List.append_assoc, List.append_assoc, List.append_assoc, literal?,
    minus_signText formed.whole]
  have guarded : guard (l.whole ≠ ['0'] ∨ ¬ (fractionText l.fraction ++
      (exponentText l.exponent ++ rest)).head?.any Char.isDigit) = some () :=
    if_pos (.inr alone)
  refine Option.bind_eq_some_iff.mpr ⟨_, whole, ?_⟩
  refine Option.bind_eq_some_iff.mpr ⟨(), guarded, ?_⟩
  refine Option.bind_eq_some_iff.mpr ⟨_, fraction, ?_⟩
  refine Option.bind_eq_some_iff.mpr ⟨_, exponent, ?_⟩
  rfl

/-! ## Literals of numbers -/

theorem toDigits_run (n : Nat) : Digits (Nat.toDigits 10 n) where
  filled := List.ne_nil_of_length_pos Nat.length_toDigits_pos
  digits _ mem := isDigit_of_mem_toDigits mem

theorem wellFormed_ofInt (n : Int) : (ofInt n).WellFormed where
  whole := numeral_toDigits _
  fraction _ mem := nomatch mem
  exponent _ mem := nomatch mem

theorem tree_ofInt {n : Int} (least : -2 ^ 63 ≤ n) (greatest : n < 2 ^ 64) :
    (ofInt n).tree = .int n := by
  have kept : (ofInt n).integer? = some n := by
    simp only [integer?, ofInt, Option.isSome_none, Bool.or_self, Bool.false_eq_true, if_false,
      Nat.ofDigitChars_ten_toDigits, decide_eq_true_eq]
    split
    · rw [if_pos (by omega)]
      simp only [Option.some.injEq]
      omega
    · rw [if_pos (by omega)]
      simp only [Option.some.injEq]
      omega
  rw [tree, kept]

/-- The literal spells a number with a fraction or an exponent, and is rounded as the decimal is. -/
structure Spells (l : Literal) (negative : Bool) (d : Decimal) : Prop where
  formed : l.WellFormed
  sign : l.negative = negative
  pointed : (l.fraction.isSome || l.exponent.isSome) = true
  value : Binary64.ofDecimal negative l.decimal = Binary64.ofDecimal negative d

theorem decimal_fraction (negative : Bool) (whole fraction : List Char) :
    decimal ⟨negative, whole, some fraction, none⟩ = .ofDigits whole fraction := by
  simp [decimal, Decimal.ofDigits]

theorem spells_fraction {negative : Bool} {whole fraction : List Char} {d : Decimal}
    (numeral : Numeral whole) (digits : Digits fraction)
    (value : Binary64.ofDecimal negative (.ofDigits whole fraction) =
      Binary64.ofDecimal negative d) :
    Spells ⟨negative, whole, some fraction, none⟩ negative d where
  formed := ⟨numeral, fun _ mem => Option.some_inj.mp mem ▸ digits, fun _ mem => nomatch mem⟩
  sign := rfl
  pointed := rfl
  value := by rw [decimal_fraction, value]

theorem digits_zero : Digits ['0'] := ⟨by simp, by simp⟩

theorem spells_zero (negative : Bool) {d : Decimal} (zero : d.digits = 0) :
    Spells ⟨negative, ['0'], some ['0'], none⟩ negative d := by
  obtain ⟨n, e⟩ := d
  obtain rfl : n = 0 := zero
  refine spells_fraction .zero digits_zero ?_
  rw [Binary64.ofDecimal_zero]
  exact Binary64.ofDecimal_zero negative (-1)

theorem takeWhile_toDigits (n : Nat) :
    (Nat.toDigits 10 n).takeWhile Char.isDigit = Nat.toDigits 10 n := by
  have stop : ∀ c ∈ ([] : List Char).head?, c.isDigit = false := by simp
  simpa using Text.takeWhile_append_stop (toDigits_run n).digits stop

theorem dropWhile_toDigits (n : Nat) : (Nat.toDigits 10 n).dropWhile Char.isDigit = [] := by
  have stop : ∀ c ∈ ([] : List Char).head?, c.isDigit = false := by simp
  simpa using Text.dropWhile_append_stop (toDigits_run n).digits stop

theorem spells_positional (negative : Bool) (d : Decimal) :
    let fraction := (d.positional.dropWhile Char.isDigit).drop 1
    Spells ⟨negative, d.positional.takeWhile Char.isDigit,
      some (if fraction.isEmpty then ['0'] else fraction), none⟩ negative d := by
  obtain ⟨n, exponent⟩ := d
  cases exponent with
  | ofNat e =>
    simp only [Decimal.positional, takeWhile_toDigits, dropWhile_toDigits, List.drop_nil,
      List.isEmpty_nil, if_true]
    refine spells_fraction (numeral_toDigits _) digits_zero ?_
    rw [Binary64.ofDigits_tenths, Binary64.ofDecimal_tenths]
    rfl
  | negSucc e =>
    obtain ⟨whole, fraction, text, numeral, filled, digits, value⟩ :=
      Decimal.positional_parts (d := ⟨n, .negSucc e⟩) rfl
    have point : ∀ c ∈ ('.' :: fraction).head?, c.isDigit = false := Text.stop_cons (by decide) _
    have all := numeral_digits numeral
    rw [text, Text.takeWhile_append_stop all point, Text.dropWhile_append_stop all point]
    simp only [List.drop_one, List.tail_cons, List.isEmpty_eq_false_iff.mpr filled,
      Bool.false_eq_true, if_false]
    exact spells_fraction numeral ⟨filled, digits⟩ (by rw [value])

theorem spells_scientific (negative : Bool) {d : Decimal} (positive : d.digits ≠ 0) :
    let digits := Nat.toDigits 10 d.digits
    let leading := d.exponent + digits.length - 1
    let fraction := digits.drop 1
    Spells ⟨negative, digits.take 1, if fraction.isEmpty then none else some fraction,
      some (leading < 0, Nat.toDigits 10 leading.natAbs)⟩ negative d := by
  intro digits leading fraction
  have long : 0 < digits.length := Nat.length_toDigits_pos
  have later : (if fraction.isEmpty then none else some fraction).getD [] = fraction := by
    split
    · next empty => simp [List.isEmpty_iff.mp empty]
    · rfl
  refine ⟨⟨numeral_take_toDigits (Nat.pos_of_ne_zero positive) 0, ?_, ?_⟩, rfl, by simp, ?_⟩
  · intro ds mem
    split at mem
    · contradiction
    · next filled =>
      obtain rfl := Option.some_inj.mp mem
      exact ⟨by simpa using filled, fun c mem => isDigit_of_mem_toDigits (List.mem_of_mem_drop mem)⟩
  · intro e mem
    obtain rfl := Option.some_inj.mp mem
    exact toDigits_run _
  · have same : digits.take 1 ++ fraction = digits := List.take_append_drop 1 digits
    have exponent : -(fraction.length : Int) + leading = d.exponent := by
      simp only [fraction, leading, List.length_drop]
      omega
    have spelled : Nat.ofDigitChars 10 digits 0 = d.digits := Nat.ofDigitChars_ten_toDigits
    simp only [decimal, later, Decimal.ofDigits, same, spelled, Nat.ofDigitChars_ten_toDigits,
      Reading.signed_natAbs, exponent]

/-- However a decimal is laid out, the text has a fraction or an exponent. -/
theorem spells_ofDecimal (negative : Bool) (d : Decimal) :
    Spells (ofDecimal negative d) negative d := by
  unfold ofDecimal
  dsimp only
  split
  · next zero => exact spells_zero negative zero
  · next positive =>
    split
    · exact spells_positional negative d
    · exact spells_scientific negative positive

theorem ofFloat?_finite (negative : Bool) (m : Magnitude) :
    ∃ l, ofFloat? (.finite negative m) = some l ∧ l.WellFormed ∧
      (l.fraction.isSome || l.exponent.isSome) = true ∧ l.tree = .float (.finite negative m) := by
  have spells := spells_ofDecimal negative (.shortest .toEven m)
  refine ⟨_, rfl, spells.formed, spells.pointed, ?_⟩
  have back : Binary64.ofDecimal negative (.shortest .toEven m) = .finite negative m :=
    Binary64.ofDecimal_sign (Decimal.ofDecimal_shortest .toEven m)
  rw [tree, integer?, if_pos spells.pointed, spells.sign, Binary64.ofScientific_eq, spells.value,
    back]

end Commission.Json
