import Commission.Proofs.Rule.Limits
import Commission.Proofs.Rule.Parentheses

/-!
The check of calculations refuses nothing that can be read on one line. Tokens consist of characters
that the check knows, and the check counts no more levels than the reader of calculations does.
Main statement: `check_accepts_readable`.
-/
namespace Commission

namespace Expr.Grammar

/-! ## The characters of a calculation -/

def Lawful (cs : List Char) : Prop := ∀ c ∈ cs, isSpace c ∨ Rule.isCalculationChar c

theorem lawful_nil : Lawful [] := by simp [Lawful]

theorem lawful_cons {c : Char} {cs : List Char} (one : Rule.isCalculationChar c)
    (rest : Lawful cs) : Lawful (c :: cs) := by
  intro d mem
  rcases List.mem_cons.mp mem with rfl | mem
  · exact .inr one
  · exact rest d mem

theorem lawful_append {cs ds : List Char} (first : Lawful cs) (second : Lawful ds) :
    Lawful (cs ++ ds) := by
  intro c mem
  rcases List.mem_append.mp mem with mem | mem
  · exact first c mem
  · exact second c mem

theorem lawful_blank {blanks : List Char} (blank : Blank blanks) : Lawful blanks :=
  fun c mem => .inl (isSpace_iff.mpr (blank c mem))

theorem lawful_token {blanks cs : List Char} {c : Char} (blank : Blank blanks)
    (one : Rule.isCalculationChar c) (rest : Lawful cs) : Lawful (blanks ++ c :: cs) :=
  lawful_append (lawful_blank blank) (lawful_cons one rest)

theorem lawful_enclosed {cs before : List Char} (inside : Lawful cs) (blank : Blank before) :
    Lawful ('(' :: (cs ++ (before ++ [')']))) :=
  lawful_cons (by decide)
    (lawful_append inside (lawful_token blank (by decide) lawful_nil))

theorem lawful_digits {ds : List Char} (digits : Digits ds) : Lawful ds := by
  intro c mem
  right
  simp [Rule.isCalculationChar, Char.isAlphanum, digits c mem]

theorem lawful_number {cs : List Char} {d : Decimal} (number : Number cs d) : Lawful cs := by
  cases number with
  | whole filled digits => exact lawful_digits digits
  | point filled digits fraction =>
    exact lawful_append (lawful_digits digits) (lawful_cons (by decide) (lawful_digits fraction))
  | fraction filled digits => exact lawful_cons (by decide) (lawful_digits digits)

theorem lawful_name {name : List Char} (named : Text.Identifier.isIdentifier name) :
    Lawful name := by
  intro c mem
  right
  have part := Text.Identifier.isPart_of_mem named c mem
  simp only [Text.Identifier.isPart, Bool.or_eq_true, beq_iff_eq] at part
  rcases part with solid | rfl
  · simp [Rule.isCalculationChar, solid]
  · decide

theorem lawful_symbol {strength : Strength} {c : Char} {op : BinaryOp}
    (symbol : strength.Symbol c op) : Rule.isCalculationChar c := by
  cases symbol <;> decide

mutual

theorem signed_lawful {sign n : Nat} {cs : List Char} {e : Expr} :
    Signed sign n cs e → Lawful cs
  | .minus blank operand => lawful_token blank (by decide) (signed_lawful operand)
  | .plus blank operand => lawful_token blank (by decide) (signed_lawful operand)
  | .number blank digits => lawful_append (lawful_blank blank) (lawful_number digits)
  | .variable blank named => lawful_append (lawful_blank blank) (lawful_name named)
  | .group blank inside blank' =>
    lawful_append (lawful_blank blank) (lawful_enclosed (chain_lawful inside) blank')
  | .call blank named blank' inside blank'' => by
    have enclosed := lawful_enclosed (arguments_lawful inside) blank''
    have called := lawful_append (lawful_blank blank') enclosed
    exact lawful_append (lawful_blank blank) (lawful_append (lawful_name named) called)

theorem operand_lawful {sign n : Nat} {strength : Strength} {cs : List Char} {e : Expr} :
    Operand sign strength n cs e → Lawful cs
  | .ofSigned operand => signed_lawful operand
  | .ofProduct operand => chain_lawful operand

theorem chain_lawful {sign n : Nat} {strength : Strength} {cs : List Char} {e : Expr} :
    Chain sign strength n cs e → Lawful cs
  | .mk first more => lawful_append (operand_lawful first) (links_lawful more)

theorem links_lawful {sign n : Nat} {strength : Strength} {cs : List Char}
    {links : List (BinaryOp × Expr)} : Links sign strength n cs links → Lawful cs
  | .nil => lawful_nil
  | .cons blank symbol operand more =>
    lawful_token blank (lawful_symbol symbol)
      (lawful_append (operand_lawful operand) (links_lawful more))

theorem arguments_lawful {sign n : Nat} {cs : List Char} {args : List Expr} :
    Arguments sign n cs args → Lawful cs
  | .none => lawful_nil
  | .some first more => lawful_append (chain_lawful first) (moreArguments_lawful more)

theorem moreArguments_lawful {sign n : Nat} {cs : List Char} {args : List Expr} :
    MoreArguments sign n cs args → Lawful cs
  | .nil => lawful_nil
  | .cons blank argument more =>
    lawful_token blank (by decide)
      (lawful_append (chain_lawful argument) (moreArguments_lawful more))

end

theorem calculation_lawful {sign n : Nat} {text : List Char} {e : Expr}
    (calculation : Calculation sign n text e) : Lawful text := by
  obtain ⟨body, blanks, rfl, phrase, blank⟩ := calculation
  exact lawful_append (chain_lawful phrase) (lawful_blank blank)

/-! ## A calculation is not blank -/

theorem solid_of_signed {sign n : Nat} {cs : List Char} {e : Expr} :
    Signed sign n cs e → ∃ c ∈ cs, Text.isBlank c = false
  | .minus _ _ => ⟨'-', by simp, by decide⟩
  | .plus _ _ => ⟨'+', by simp, by decide⟩
  | .number _ digits => by
    obtain ⟨c, mem, solid⟩ := solid_of_number digits
    exact ⟨c, List.mem_append_right _ mem, solid⟩
  | .variable _ named => by
    obtain ⟨c, mem, solid⟩ := solid_of_name named
    exact ⟨c, List.mem_append_right _ mem, solid⟩
  | .group _ _ _ => ⟨'(', by simp, by decide⟩
  | .call _ _ _ _ _ => ⟨'(', by simp, by decide⟩

theorem solid_of_product {sign n : Nat} {cs : List Char} {e : Expr}
    (product : Chain sign .product n cs e) : ∃ c ∈ cs, Text.isBlank c = false := by
  cases product with
  | mk first more =>
    cases first with
    | ofSigned operand =>
      obtain ⟨c, mem, solid⟩ := solid_of_signed operand
      exact ⟨c, by simp [mem], solid⟩

theorem solid_of_calculation {sign n : Nat} {text : List Char} {e : Expr}
    (calculation : Calculation sign n text e) : Text.isBlankLine text = false := by
  obtain ⟨body, blanks, rfl, phrase, -⟩ := calculation
  cases phrase with
  | mk first more =>
    cases first with
    | ofProduct product =>
      obtain ⟨c, mem, solid⟩ := solid_of_product product
      rw [Text.isBlankLine, List.all_eq_false]
      exact ⟨c, by simp [mem], by simp [solid]⟩

end Expr.Grammar

/-! ## The check -/

namespace Rule
open Expr.Grammar

theorem byteCount_trim_le (cs : List Char) : Text.byteCount (Text.trim cs) ≤ Text.byteCount cs := by
  obtain ⟨before, after, split, -, -⟩ := Text.trim_split cs
  have total := congrArg Text.byteCount split
  rw [Text.byteCount_append, Text.byteCount_append] at total
  omega

/-- On one line the space is the only blank, and the check allows it. -/
theorem isCalculationChar_of_lawful {cs : List Char} (lawful : Lawful cs)
    (oneLine : ∀ c ∈ cs, c ≠ '\t' ∧ c ≠ '\r' ∧ c ≠ '\n') : ∀ c ∈ cs, isCalculationChar c := by
  intro c mem
  rcases lawful c mem with space | allowed
  · obtain ⟨noTab, noReturn, noFeed⟩ := oneLine c mem
    rcases isSpace_iff.mp space with rfl | rfl | rfl | rfl
    · decide
    · contradiction
    · contradiction
    · contradiction
  · exact allowed

theorem checkCalculation_of_parts {calculation : String} {deepest : Nat}
    (filled : Text.trim calculation.toList ≠ [])
    (short : Text.byteCount (Text.trim calculation.toList) ≤ maxCalculationBytes)
    (allowed : ∀ c ∈ calculation.toList, isCalculationChar c)
    (counted : nesting? 0 0 calculation.toList = some deepest) (shallow : deepest ≤ maxNesting) :
    checkCalculation calculation = .ok () := by
  have known : (Text.trim calculation.toList).find? (fun c => !isCalculationChar c) = none := by
    rw [List.find?_eq_none]
    intro c mem
    simp [allowed c (Text.mem_of_mem_trim mem)]
  rw [← nesting?_trim] at counted
  simp only [checkCalculation, andThen_eq_ok_iff, require_eq_ok_iff, known, counted,
    decide_eq_true_eq]
  exact ⟨by simpa using filled, short, shallow⟩

end Rule

open Expr.Grammar

/-- A calculation on one line that can be read passes the check: its characters are allowed, its
    parentheses close in order and nest no deeper than the limit, and trimmed it is neither empty
    nor too long. -/
theorem check_accepts_readable {text : String} {e : Expr} (read : Expr.parse text = .ok e)
    (oneLine : ∀ c ∈ text.toList, c ≠ '\t' ∧ c ≠ '\r' ∧ c ≠ '\n') :
    Rule.checkCalculation text = .ok () ∧
    (∀ c ∈ text.toList, Rule.isCalculationChar c) ∧
    Rule.Nests maxNesting text.toList ∧
    1 ≤ Text.byteCount (Text.trim text.toList) ∧
    Text.byteCount (Text.trim text.toList) ≤ maxCalculationBytes := by
  obtain ⟨short, n, shallow, calculation⟩ := (parse_eq_ok_iff text e).mp read
  obtain ⟨m, lighter, light⟩ := calculation_light calculation
  have allowed := Rule.isCalculationChar_of_lawful (calculation_lawful calculation) oneLine
  have counted := nesting?_of_calculation light
  have filled := Text.trim_ne_nil (solid_of_calculation calculation)
  have short' := Nat.le_trans (Rule.byteCount_trim_le text.toList) short
  have within : m ≤ maxNesting := Nat.le_trans lighter shallow
  refine ⟨Rule.checkCalculation_of_parts filled short' allowed counted within, allowed, ?_, ?_,
    short'⟩
  · exact (Rule.nesting?_le_iff maxNesting text.toList).mp ⟨m, counted, within⟩
  · exact Nat.le_trans (List.length_pos_iff.mpr filled) (Text.length_le_byteCount _)

theorem check_accepts_readable_nested :
    ∃ e, Expr.parse " -max((x), 2 * (y + .5), now( )) " = .ok e ∧
      Rule.checkCalculation " -max((x), 2 * (y + .5), now( )) " = .ok () ∧
      Rule.Nests maxNesting " -max((x), 2 * (y + .5), now( )) ".toList := by
  have accepted : (Expr.parse " -max((x), 2 * (y + .5), now( )) ").toOption.isSome := by
    decide +kernel
  obtain ⟨e, read⟩ := Option.isSome_iff_exists.mp accepted
  have read' := toOption_eq_some_iff.mp read
  have oneLine : " -max((x), 2 * (y + .5), now( )) ".toList.all
      fun c => c ≠ '\t' ∧ c ≠ '\r' ∧ c ≠ '\n' := by
    decide +kernel
  have check := check_accepts_readable read' (by simpa only [List.all_eq_true, decide_eq_true_eq]
    using oneLine)
  exact ⟨e, read', check.1, check.2.2.1⟩

end Commission
