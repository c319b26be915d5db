import Commission.Proofs.Expr.Errors
import Commission.Proofs.Expr.Nesting
import Commission.Proofs.Rule.Rereading

/-!
What the limits of the check of rules mean for their evaluation. The check measures the trimmed text
and counts parentheses; the reader of calculations measures the text as it stands and counts signs
too. A valid rule is therefore sheltered from the limits of the reader only under the two conditions
of `sheltered_iff`, the second of which remains for rules read from a text.
-/
namespace Commission

/-! ## What the check ensures -/

namespace Rule

theorem require_eq_ok_iff (met : Bool) (e : ValidationError) :
    require met e = .ok () ↔ met = true := by
  cases met <;> simp [require]

theorem checkCalculation_of_validate {fields : FieldSet} {r : Rule}
    (valid : r.validate fields = .ok ()) : checkCalculation r.calculation = .ok () := by
  simp only [validate, andThen_eq_ok_iff] at valid
  exact valid.2.2.2.1

theorem limits_of_checkCalculation {calculation : String}
    (valid : checkCalculation calculation = .ok ()) :
    Text.byteCount (Text.trim calculation.toList) ≤ maxCalculationBytes ∧
      ∃ deepest, nesting? 0 0 (Text.trim calculation.toList) = some deepest ∧
        deepest ≤ maxNesting := by
  simp only [checkCalculation, andThen_eq_ok_iff, require_eq_ok_iff, decide_eq_true_eq] at valid
  obtain ⟨-, short, valid⟩ := valid
  refine ⟨short, ?_⟩
  split at valid
  · contradiction
  · split at valid
    · contradiction
    · next deepest counted =>
      exact ⟨deepest, counted, by simpa [require_eq_ok_iff] using valid⟩

theorem plain_of_isBlank {cs : List Char} (blank : ∀ c ∈ cs, Text.isBlank c) :
    Expr.Grammar.Plain cs := by
  intro c mem
  have space := blank c mem
  constructor <;> rintro rfl <;> contradiction

theorem nesting?_trim (cs : List Char) : nesting? 0 0 (Text.trim cs) = nesting? 0 0 cs := by
  obtain ⟨before, after, split, blank, blank'⟩ := Text.trim_split cs
  generalize Text.trim cs = body at *
  rw [split, Expr.Grammar.nesting?_plain (plain_of_isBlank blank),
    Expr.Grammar.nesting?_append_plain (plain_of_isBlank blank')]

end Rule

namespace Expr
open Grammar

/-! ## Shelter from the limits -/

/-- No evaluation of the text fails for its length, and none fails for its nesting: a text of the
    grammar is never called malformed. -/
def Sheltered (text : String) : Prop :=
  ∀ functions ctx,
    (∀ bytes, evaluate functions ctx text ≠ .error (.tooLong bytes)) ∧
    ((∃ n e, Calculation 1 n text.toList e) →
      ∀ offset wanted, evaluate functions ctx text ≠ .error (.malformed offset wanted))

theorem sheltered_iff_within (text : String) :
    Sheltered text ↔ Text.byteCount text.toList ≤ maxCalculationBytes ∧
      ∀ n e, Calculation 1 n text.toList e → n ≤ maxNesting := by
  constructor
  · intro sheltered
    obtain ⟨length, nesting⟩ := sheltered .standard .empty
    have short : Text.byteCount text.toList ≤ maxCalculationBytes := by
      apply Decidable.byContradiction
      intro long
      apply length (Text.byteCount text.toList)
      rw [evaluate_tooLong_iff]
      exact parse_of_long (by omega)
    refine ⟨short, fun n e calculation => ?_⟩
    rcases parse_of_short short with ⟨f, accepted⟩ | ⟨offset, wanted, refused⟩
    · obtain ⟨m, shallow, other⟩ := calculation_of_parse accepted
      rw [nesting_unique calculation other]
      exact shallow
    · refine absurd ?_ (nesting ⟨n, e, calculation⟩ offset wanted)
      rw [evaluate_malformed_iff]
      exact refused
  · rintro ⟨short, shallow⟩ functions ctx
    constructor
    · intro bytes failed
      rw [evaluate_tooLong_iff, parse_eq_tooLong_iff] at failed
      omega
    · rintro ⟨n, e, calculation⟩ offset wanted failed
      rw [evaluate_malformed_iff,
        parse_of_calculation short (shallow n e calculation) calculation] at failed
      contradiction

end Expr

/-! ## Many signs -/

namespace Expr.Grammar

theorem blank_nil : Blank [] := by simp [Blank]

theorem calculation_of_signed {sign n : Nat} {cs : List Char} {e : Expr}
    (operand : Signed sign n cs e) : Calculation sign n cs e := by
  refine ⟨cs, [], by simp, ?_, blank_nil⟩
  have product := Chain.mk (.ofSigned operand) .nil
  have sum := Chain.mk (.ofProduct product) .nil
  simpa [grouped] using sum

def minuses (k : Nat) : List Char := List.replicate k '-' ++ ['1']

theorem signed_minuses (k : Nat) : ∃ e, Signed 1 k (minuses k) e := by
  induction k with
  | zero =>
    have digits : Number ['1'] (.ofDigits ['1'] []) := .whole (by simp) (by simp [Digits])
    exact ⟨_, .number blank_nil digits⟩
  | succ k ih =>
    obtain ⟨e, operand⟩ := ih
    exact ⟨_, .minus blank_nil operand⟩

theorem calculation_minuses (k : Nat) : ∃ e, Calculation 1 k (minuses k) e := by
  obtain ⟨e, operand⟩ := signed_minuses k
  exact ⟨e, calculation_of_signed operand⟩

theorem nesting_minuses {k n : Nat} {e : Expr} (calculation : Calculation 1 n (minuses k) e) :
    n = k := by
  obtain ⟨f, same⟩ := calculation_minuses k
  rw [← String.toList_ofList (l := minuses k)] at calculation same
  exact nesting_unique calculation same

end Expr.Grammar

def minusesRule (k : Nat) : Rule :=
  ⟨"Signs", 1, [⟨"quota", .gt, .scalar (.int 0)⟩], String.ofList (Expr.Grammar.minuses k), none⟩

/-! ## Valid rules -/

/-- A valid rule is sheltered from the limits of evaluation exactly if its calculation is short also
    with the blanks around it and not too deep also with its signs. The check of rules ensures the
    one without those blanks and the other without signs; reading a rule takes the blanks away. -/
theorem sheltered_iff (s : Service) {r : Rule} (valid : s.validate r = .ok ()) :
    (Expr.Sheltered r.calculation ↔
      Text.byteCount r.calculation.toList ≤ maxCalculationBytes ∧
        ∀ n e, Expr.Grammar.Calculation 1 n r.calculation.toList e → n ≤ maxNesting) ∧
    Text.byteCount (Text.trim r.calculation.toList) ≤ maxCalculationBytes ∧
    (∀ n e, Expr.Grammar.Calculation 1 n r.calculation.toList e →
      ∃ m, m ≤ n ∧ m ≤ maxNesting ∧ Expr.Grammar.Calculation 0 m r.calculation.toList e) ∧
    ∀ text, s.parse text = .ok r → (Expr.Sheltered r.calculation ↔
      ∀ n e, Expr.Grammar.Calculation 1 n r.calculation.toList e → n ≤ maxNesting) := by
  have check := Rule.checkCalculation_of_validate valid
  obtain ⟨short, deepest, counted, shallow⟩ := Rule.limits_of_checkCalculation check
  have within := Expr.sheltered_iff_within r.calculation
  refine ⟨within, short, ?_, ?_⟩
  · intro n e calculation
    obtain ⟨m, le, light⟩ := Expr.Grammar.calculation_light calculation
    rw [Rule.nesting?_trim, Expr.Grammar.nesting?_of_calculation light] at counted
    obtain rfl := Option.some.inj counted
    exact ⟨m, le, shallow, light⟩
  · intro text read
    have parsed := ((s.parse_eq_ok_iff text r).mp read).1
    rw [(written_of_parse parsed).calculation.trimmed] at short
    rw [within]
    exact and_iff_right short

theorem sheltered_iff_minuses :
    Service.parse {} (minusesRule 32).render = .ok (minusesRule 32) ∧
      Expr.Sheltered (minusesRule 32).calculation := by
  have read : Service.parse {} (minusesRule 32).render = .ok (minusesRule 32) := by
    apply toOption_eq_some_iff.mp
    decide +kernel
  have valid := ((Service.parse_eq_ok_iff {} _ _).mp read).2
  refine ⟨read, ((sheltered_iff {} valid).2.2.2 _ read).mpr fun n e calculation => ?_⟩
  rw [minusesRule, String.toList_ofList] at calculation
  rw [Expr.Grammar.nesting_minuses calculation]
  decide

theorem minuses_not_sheltered :
    ¬ ∀ (s : Service) (r : Rule), s.validate r = .ok () → Expr.Sheltered r.calculation := by
  intro sheltered
  have valid : Service.validate {} (minusesRule 33) = .ok () := by
    apply toOption_eq_some_iff.mp
    decide +kernel
  have within := (Expr.sheltered_iff_within _).mp (sheltered {} (minusesRule 33) valid)
  obtain ⟨e, calculation⟩ := Expr.Grammar.calculation_minuses 33
  have shallow := within.2 33 e (by rwa [minusesRule, String.toList_ofList])
  exact absurd shallow (by decide)

end Commission
