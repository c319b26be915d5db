import Commission.Proofs.Expr.Exactness
import Commission.Rule.Validation

/-!
Two measures of how deep a calculation goes. The check of rules counts the parentheses that are
open, the reader of calculations counts the signs in front of an operand as well. On a text of the
grammar the first is the nesting without signs, and it never exceeds the second.
-/
namespace Commission.Expr.Grammar

/-! ## Leaving signs out -/

mutual

theorem signed_light {sign n : Nat} {cs : List Char} {e : Expr} :
    Signed sign n cs e → ∃ m, m ≤ n ∧ Signed 0 m cs e
  | .minus blank operand => by
    obtain ⟨m, le, light⟩ := signed_light operand
    exact ⟨m + 0, by omega, .minus blank light⟩
  | .plus blank operand => by
    obtain ⟨m, le, light⟩ := signed_light operand
    exact ⟨m + 0, by omega, .plus blank light⟩
  | .number blank digits => ⟨0, by omega, .number blank digits⟩
  | .variable blank named => ⟨0, by omega, .variable blank named⟩
  | .group blank inside blank' => by
    obtain ⟨m, le, light⟩ := chain_light inside
    exact ⟨m + 1, by omega, .group blank light blank'⟩
  | .call blank named blank' inside blank'' => by
    obtain ⟨m, le, light⟩ := arguments_light inside
    exact ⟨m + 1, by omega, .call blank named blank' light blank''⟩

theorem operand_light {sign n : Nat} {strength : Strength} {cs : List Char} {e : Expr} :
    Operand sign strength n cs e → ∃ m, m ≤ n ∧ Operand 0 strength m cs e
  | .ofSigned operand => by
    obtain ⟨m, le, light⟩ := signed_light operand
    exact ⟨m, le, .ofSigned light⟩
  | .ofProduct operand => by
    obtain ⟨m, le, light⟩ := chain_light operand
    exact ⟨m, le, .ofProduct light⟩

theorem chain_light {sign n : Nat} {strength : Strength} {cs : List Char} {e : Expr} :
    Chain sign strength n cs e → ∃ m, m ≤ n ∧ Chain 0 strength m cs e
  | .mk first more => by
    obtain ⟨m, le, light⟩ := operand_light first
    obtain ⟨k, le', light'⟩ := links_light more
    exact ⟨max m k, by omega, .mk light light'⟩

theorem links_light {sign n : Nat} {strength : Strength} {cs : List Char}
    {links : List (BinaryOp × Expr)} :
    Links sign strength n cs links → ∃ m, m ≤ n ∧ Links 0 strength m cs links
  | .nil => ⟨0, by omega, .nil⟩
  | .cons blank symbol operand more => by
    obtain ⟨m, le, light⟩ := operand_light operand
    obtain ⟨k, le', light'⟩ := links_light more
    exact ⟨max m k, by omega, .cons blank symbol light light'⟩

theorem arguments_light {sign n : Nat} {cs : List Char} {args : List Expr} :
    Arguments sign n cs args → ∃ m, m ≤ n ∧ Arguments 0 m cs args
  | .none => ⟨0, by omega, .none⟩
  | .some first more => by
    obtain ⟨m, le, light⟩ := chain_light first
    obtain ⟨k, le', light'⟩ := moreArguments_light more
    exact ⟨max m k, by omega, .some light light'⟩

theorem moreArguments_light {sign n : Nat} {cs : List Char} {args : List Expr} :
    MoreArguments sign n cs args → ∃ m, m ≤ n ∧ MoreArguments 0 m cs args
  | .nil => ⟨0, by omega, .nil⟩
  | .cons blank argument more => by
    obtain ⟨m, le, light⟩ := chain_light argument
    obtain ⟨k, le', light'⟩ := moreArguments_light more
    exact ⟨max m k, by omega, .cons blank light light'⟩

end

/-- Leaving signs out of the nesting makes it no larger. -/
theorem calculation_light {sign n : Nat} {text : List Char} {e : Expr}
    (calculation : Calculation sign n text e) : ∃ m, m ≤ n ∧ Calculation 0 m text e := by
  obtain ⟨body, blanks, rfl, phrase, blank⟩ := calculation
  obtain ⟨m, le, light⟩ := chain_light phrase
  exact ⟨m, le, body, blanks, rfl, light, blank⟩

/-! ## Counting parentheses -/

/-- Counting through the text opens at most `n` parentheses at once and closes them all. -/
def Measures (n : Nat) (cs : List Char) : Prop :=
  ∀ depth deepest rest, depth ≤ deepest →
    Rule.nesting? depth deepest (cs ++ rest) = Rule.nesting? depth (max deepest (depth + n)) rest

def Plain (cs : List Char) : Prop := ∀ c ∈ cs, c ≠ '(' ∧ c ≠ ')'

theorem nesting?_cons {c : Char} (plain : c ≠ '(' ∧ c ≠ ')') (depth deepest : Nat)
    (rest : List Char) :
    Rule.nesting? depth deepest (c :: rest) = Rule.nesting? depth deepest rest := by
  rw [Rule.nesting?]
  · exact plain.1
  · exact plain.2

theorem nesting?_plain {cs : List Char} (plain : Plain cs) (depth deepest : Nat)
    (rest : List Char) :
    Rule.nesting? depth deepest (cs ++ rest) = Rule.nesting? depth deepest rest := by
  induction cs with
  | nil => rfl
  | cons c cs ih =>
    rw [List.cons_append, nesting?_cons (plain c (by simp))]
    exact ih fun d mem => plain d (by simp [mem])

theorem nesting?_append_plain {after : List Char} (plain : Plain after) (cs : List Char)
    (depth deepest : Nat) :
    Rule.nesting? depth deepest (cs ++ after) = Rule.nesting? depth deepest cs := by
  induction cs generalizing depth deepest with
  | nil =>
    have counted := nesting?_plain plain depth deepest []
    rwa [List.append_nil] at counted
  | cons c cs ih =>
    rw [List.cons_append]
    by_cases opens : c = '('
    · subst opens
      rw [Rule.nesting?, Rule.nesting?, ih]
    · by_cases closes : c = ')'
      · subst closes
        rw [Rule.nesting?, Rule.nesting?, ih]
      · rw [nesting?_cons ⟨opens, closes⟩, nesting?_cons ⟨opens, closes⟩, ih]

theorem measures_plain {cs : List Char} (plain : Plain cs) : Measures 0 cs := by
  intro depth deepest rest le
  rw [nesting?_plain plain, Nat.max_eq_left (by omega)]

theorem measures_append {n m : Nat} {cs ds : List Char} (first : Measures n cs)
    (second : Measures m ds) : Measures (max n m) (cs ++ ds) := by
  intro depth deepest rest le
  rw [List.append_assoc, first depth deepest _ le, second depth _ _ (by omega)]
  congr 1
  omega

theorem measures_after {n : Nat} {cs ds : List Char} (plain : Plain cs) (h : Measures n ds) :
    Measures n (cs ++ ds) := by
  have both := measures_append (measures_plain plain) h
  rwa [Nat.zero_max] at both

theorem measures_parentheses {n : Nat} {cs : List Char} (h : Measures n cs) :
    Measures (n + 1) ('(' :: (cs ++ [')'])) := by
  intro depth deepest rest le
  have inside := h (depth + 1) (max deepest (depth + 1)) (')' :: rest) (by omega)
  rw [List.cons_append, List.append_assoc, List.singleton_append, Rule.nesting?, inside,
    Rule.nesting?, if_neg (by omega), Nat.add_sub_cancel]
  congr 1
  omega

theorem plain_blank {blanks : List Char} (blank : Blank blanks) : Plain blanks := by
  intro c mem
  rcases blank c mem with rfl | rfl | rfl | rfl <;> decide

theorem plain_digits {ds : List Char} (digits : Digits ds) : Plain ds := by
  intro c mem
  have digit := digits c mem
  constructor <;> rintro rfl <;> contradiction

theorem plain_number {cs : List Char} {d : Decimal} (number : Number cs d) : Plain cs := by
  cases number with
  | whole filled digits => exact plain_digits digits
  | @point ds fs filled digits fraction =>
    intro c mem
    rcases List.mem_append.mp mem with mem | mem
    · exact plain_digits digits c mem
    · rcases List.mem_cons.mp mem with rfl | mem
      · decide
      · exact plain_digits fraction c mem
  | @fraction fs filled digits =>
    intro c mem
    rcases List.mem_cons.mp mem with rfl | mem
    · decide
    · exact plain_digits digits c mem

theorem plain_name {name : List Char} (named : Text.Identifier.isIdentifier name) : Plain name := by
  intro c mem
  cases name with
  | nil => simp at mem
  | cons d rest =>
    simp only [Text.Identifier.isIdentifier, Bool.and_eq_true, List.all_eq_true] at named
    rcases List.mem_cons.mp mem with rfl | mem
    · have start := named.1
      constructor <;> rintro rfl <;> contradiction
    · have part := named.2 c mem
      constructor <;> rintro rfl <;> contradiction

theorem plain_cons {c : Char} {cs : List Char} (one : c ≠ '(' ∧ c ≠ ')') (rest : Plain cs) :
    Plain (c :: cs) := by
  intro d mem
  rcases List.mem_cons.mp mem with rfl | mem
  · exact one
  · exact rest d mem

theorem plain_append {cs ds : List Char} (first : Plain cs) (second : Plain ds) :
    Plain (cs ++ ds) := by
  intro c mem
  rcases List.mem_append.mp mem with mem | mem
  · exact first c mem
  · exact second c mem

theorem plain_symbol {strength : Strength} {c : Char} {op : BinaryOp}
    (symbol : strength.Symbol c op) : c ≠ '(' ∧ c ≠ ')' := by
  cases symbol <;> decide

theorem plain_token {blanks : List Char} {c : Char} (blank : Blank blanks)
    (one : c ≠ '(' ∧ c ≠ ')') : Plain (blanks ++ [c]) :=
  plain_append (plain_blank blank) (plain_cons one fun _ mem => by simp at mem)

theorem measures_token {n : Nat} {blanks cs : List Char} {c : Char} (blank : Blank blanks)
    (one : c ≠ '(' ∧ c ≠ ')') (h : Measures n cs) : Measures n (blanks ++ c :: cs) := by
  have after := measures_after (plain_token blank one) h
  rwa [List.append_assoc, List.singleton_append] at after

theorem measures_enclosed {n : Nat} {blanks cs before : List Char} (plain : Plain blanks)
    (h : Measures n cs) (blank : Blank before) :
    Measures (n + 1) (blanks ++ '(' :: (cs ++ (before ++ [')']))) := by
  have inside := measures_append h (measures_plain (plain_blank blank))
  rw [Nat.max_zero] at inside
  have enclosed := measures_after plain (measures_parentheses inside)
  rwa [List.append_assoc] at enclosed

mutual

theorem signed_measures {n : Nat} {cs : List Char} {e : Expr} :
    Signed 0 n cs e → Measures n cs
  | .minus blank operand => measures_token blank (by decide) (signed_measures operand)
  | .plus blank operand => measures_token blank (by decide) (signed_measures operand)
  | .number blank digits =>
    measures_plain (plain_append (plain_blank blank) (plain_number digits))
  | .variable blank named =>
    measures_plain (plain_append (plain_blank blank) (plain_name named))
  | .group blank inside blank' =>
    measures_enclosed (plain_blank blank) (chain_measures inside) blank'
  | .call blank named blank' inside blank'' => by
    have plain := plain_append (plain_blank blank)
      (plain_append (plain_name named) (plain_blank blank'))
    have enclosed := measures_enclosed plain (arguments_measures inside) blank''
    rwa [List.append_assoc, List.append_assoc] at enclosed

theorem operand_measures {strength : Strength} {n : Nat} {cs : List Char} {e : Expr} :
    Operand 0 strength n cs e → Measures n cs
  | .ofSigned operand => signed_measures operand
  | .ofProduct operand => chain_measures operand

theorem chain_measures {strength : Strength} {n : Nat} {cs : List Char} {e : Expr} :
    Chain 0 strength n cs e → Measures n cs
  | .mk first more => measures_append (operand_measures first) (links_measures more)

theorem links_measures {strength : Strength} {n : Nat} {cs : List Char}
    {links : List (BinaryOp × Expr)} : Links 0 strength n cs links → Measures n cs
  | .nil => measures_plain fun _ mem => by simp at mem
  | .cons blank symbol operand more =>
    measures_token blank (plain_symbol symbol)
      (measures_append (operand_measures operand) (links_measures more))

theorem arguments_measures {n : Nat} {cs : List Char} {args : List Expr} :
    Arguments 0 n cs args → Measures n cs
  | .none => measures_plain fun _ mem => by simp at mem
  | .some first more => measures_append (chain_measures first) (moreArguments_measures more)

theorem moreArguments_measures {n : Nat} {cs : List Char} {args : List Expr} :
    MoreArguments 0 n cs args → Measures n cs
  | .nil => measures_plain fun _ mem => by simp at mem
  | .cons blank argument more =>
    measures_token blank (by decide)
      (measures_append (chain_measures argument) (moreArguments_measures more))

end

/-- The count of the check is the nesting of the calculation without its signs. -/
theorem nesting?_of_calculation {n : Nat} {text : List Char} {e : Expr}
    (calculation : Calculation 0 n text e) : Rule.nesting? 0 0 text = some n := by
  obtain ⟨body, blanks, rfl, phrase, blank⟩ := calculation
  have counted := chain_measures phrase 0 0 [] (Nat.le_refl 0)
  rw [List.append_nil] at counted
  rw [nesting?_append_plain (plain_blank blank), counted]
  simp [Rule.nesting?]

end Commission.Expr.Grammar
