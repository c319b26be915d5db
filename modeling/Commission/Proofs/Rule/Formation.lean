import Commission.Proofs.Condition.Exactness
import Commission.Proofs.Rule.Strictness
import Commission.Service

/-!
What reading a text ensures before a rule is checked. The rule is written, its conditions compare
with numbers that have a place on the line, and the check of rules finds nothing wrong with the form
of its name or with its calculation being there. Main statement: `wellFormed_of_text`.
-/
namespace Commission

open Text (NumberedLine)

def Scalar.isNaN : Scalar → Bool
  | float x => x.isNaN
  | _ => false

def Value.scalars : Value → List Scalar
  | scalar s => [s]
  | list items => items

structure Rule.WellFormed (r : Rule) : Prop extends r.Written where
  noNaN : ∀ c ∈ r.conditions, ∀ s ∈ c.value.scalars, s.isNaN = false

/-! ## Numbers of a condition -/

theorem Binary64.isNaN_nearest (negative : Bool) (num den : Nat) :
    (nearest negative num den).isNaN = false := by
  simp only [nearest]
  split
  · rfl
  · rfl

namespace Condition.Grammar

theorem isNaN_of_number {cs : List Char} {s : Scalar} (number : Number cs s) :
    s.isNaN = false := by
  cases number with
  | integer sign numeral value => rfl
  | float sign numeral filled digits => exact Binary64.isNaN_nearest ..

theorem isNaN_of_item {cs : List Char} {s : Scalar} (item : Item cs s) : s.isNaN = false := by
  cases item with
  | quoted inside => rfl
  | number number => exact isNaN_of_number number
  | word word => cases word <;> rfl

theorem isNaN_of_moreItems {cs : List Char} {items : List Scalar} (more : MoreItems cs items) :
    ∀ s ∈ items, s.isNaN = false := by
  induction more with
  | nil => simp
  | cons gaps gaps' item later ih =>
    intro s mem
    rcases List.mem_cons.mp mem with rfl | mem
    · exact isNaN_of_item item
    · exact ih s mem

theorem isNaN_of_operand {cs : List Char} {v : Value} (operand : Operand cs v) :
    ∀ s ∈ v.scalars, s.isNaN = false := by
  cases operand with
  | scalar item =>
    intro s mem
    obtain rfl := List.mem_singleton.mp mem
    exact isNaN_of_item item
  | list gaps inside gaps' =>
    cases inside with
    | none => simp [Value.scalars]
    | some first later =>
      intro s mem
      rcases List.mem_cons.mp mem with rfl | mem
      · exact isNaN_of_item first
      · exact isNaN_of_moreItems later s mem

theorem isNaN_of_condition {cs : List Char} {c : Condition}
    (read : Reading.condition cs = .ok c) : ∀ s ∈ c.value.scalars, s.isNaN = false := by
  obtain ⟨p, gaps, -, make, -⟩ := condition_sound read
  exact isNaN_of_operand make.operand

end Condition.Grammar

/-! ## Conditions of a block -/

theorem conditions_of_reading {block : List NumberedLine} {r : Rule}
    (read : Block.reading block = .ok r) :
    (Block.linesIn (some .conditions) block).mapM NumberedLine.condition = .ok r.conditions := by
  rw [Block.reading] at read
  obtain ⟨conditions, found, rest⟩ := bind_eq_ok_iff.mp read
  split at rest
  · contradiction
  · contradiction
  · obtain rfl := Except.ok.inj rest
    exact found

theorem line_of_condition {policy : Policy} {block : List NumberedLine} {r : Rule}
    (read : Rule.ofBlock policy block = .ok r) :
    ∀ c ∈ r.conditions, ∃ line, Reading.condition line = .ok c := by
  have lenient : Block.reading block = .ok r := by
    rw [← Block.ofBlock_lenient]
    cases policy with
    | lenient => exact read
    | strict => exact lenient_of_strict read
  intro c mem
  obtain ⟨line, -, found⟩ := exists_of_mem_mapM (conditions_of_reading lenient) c mem
  exact ⟨line.body, mapError_eq_ok_iff.mp found⟩

theorem wellFormed_of_ofBlock {policy : Policy} {text : List Char} {block : List NumberedLine}
    (mem : block ∈ Text.blocks text) {r : Rule} (read : Rule.ofBlock policy block = .ok r) :
    r.WellFormed where
  toWritten := written_of_ofBlock mem read
  noNaN := by
    intro c inside
    obtain ⟨line, found⟩ := line_of_condition read c inside
    exact Condition.Grammar.isNaN_of_condition found

theorem wellFormed_of_parseAll {policy : Policy} {text : String} {rules : List Rule}
    (read : Rule.parseAll policy text = .ok rules) : ∀ r ∈ rules, r.WellFormed := by
  intro r mem
  obtain ⟨block, inside, found⟩ := exists_of_mem_mapM read r mem
  exact wellFormed_of_ofBlock inside found

/-! ## What the check of rules does not find -/

def ValidationError.isAboutForm : ValidationError → Bool
  | emptyName | invalidName _ | emptyCalculation => true
  | _ => false

def RuleError.isAboutForm : RuleError → Bool
  | validation e => e.isAboutForm
  | parse _ => false

namespace Rule

theorem failsWith_require {allowed : ValidationError → Prop} {met : Bool} {e : ValidationError}
    (fits : met = false → allowed e) : FailsWith allowed (require met e) := by
  cases met with
  | true => exact failsWith_ok ()
  | false => exact failsWith_error (fits rfl)

abbrev NotAboutForm (e : ValidationError) : Prop := e.isAboutForm = false

theorem failsWith_checkName {name : String} (named : RuleName name.toList) :
    FailsWith NotAboutForm (checkName name) := by
  have filled : (!name.toList.isEmpty) = true := by
    cases text : name.toList with
    | nil =>
      have form := named.form
      rw [text] at form
      contradiction
    | cons c cs => rfl
  apply failsWith_bind
  · apply failsWith_require
    simp [filled]
  · intro _ _
    apply failsWith_bind
    · exact failsWith_require fun _ => rfl
    · intro _ _
      apply failsWith_require
      simp [named.form]

theorem failsWith_checkCondition (fields : FieldSet) (index : Nat) (c : Condition) :
    FailsWith NotAboutForm (checkCondition fields index c) := by
  apply failsWith_bind
  · exact failsWith_require fun _ => rfl
  · intro _ _
    split
    · apply failsWith_bind
      · exact failsWith_require fun _ => rfl
      · intro _ _
        exact failsWith_require fun _ => rfl
    · exact failsWith_error rfl
    · exact failsWith_error rfl
    · exact failsWith_ok ()

theorem failsWith_checkConditionsFrom (fields : FieldSet) (cs : List Condition) (index : Nat) :
    FailsWith NotAboutForm (checkConditionsFrom fields index cs) := by
  induction cs generalizing index with
  | nil => exact failsWith_ok ()
  | cons c cs ih =>
    apply failsWith_bind
    · exact failsWith_checkCondition fields index c
    · intro _ _
      exact ih (index + 1)

theorem failsWith_checkConditions (fields : FieldSet) (cs : List Condition) :
    FailsWith NotAboutForm (checkConditions fields cs) := by
  apply failsWith_bind
  · exact failsWith_require fun _ => rfl
  · intro _ _
    apply failsWith_bind
    · exact failsWith_require fun _ => rfl
    · intro _ _
      exact failsWith_checkConditionsFrom fields cs 1

theorem failsWith_checkCalculation {calculation : String} (body : BodyLine calculation.toList) :
    FailsWith NotAboutForm (checkCalculation calculation) := by
  have filled : (!(Text.trim calculation.toList).isEmpty) = true := by
    rw [body.trimmed]
    simpa using body.filled
  apply failsWith_bind
  · apply failsWith_require
    simp [filled]
  · intro _ _
    apply failsWith_bind
    · exact failsWith_require fun _ => rfl
    · intro _ _
      split
      · exact failsWith_error rfl
      · split
        · exact failsWith_error rfl
        · exact failsWith_require fun _ => rfl

theorem failsWith_checkNotes (notes : Option String) :
    FailsWith NotAboutForm (checkNotes notes) := by
  cases notes with
  | none => exact failsWith_ok ()
  | some text => exact failsWith_require fun _ => rfl

theorem failsWith_validate (fields : FieldSet) {r : Rule} (written : r.Written) :
    FailsWith NotAboutForm (r.validate fields) := by
  apply failsWith_bind
  · exact failsWith_checkName written.name
  · intro _ _
    apply failsWith_bind
    · exact failsWith_require fun _ => rfl
    · intro _ _
      apply failsWith_bind
      · exact failsWith_checkConditions fields r.conditions
      · intro _ _
        apply failsWith_bind
        · exact failsWith_checkCalculation written.calculation
        · intro _ _
          exact failsWith_checkNotes r.notes

end Rule

namespace Service
variable (s : Service)

theorem failsWith_checked {r : Rule} (written : r.Written) :
    FailsWith (fun e => e.isAboutForm = false) (s.checked r) := by
  have check := Rule.failsWith_validate s.fields written
  unfold checked
  split
  · exact failsWith_ok r
  · next e invalid => exact failsWith_error (check e invalid)

theorem failsWith_parse (text : String) :
    FailsWith (fun e => e.isAboutForm = false) (s.parse text) := by
  unfold parse
  split
  · next r read => exact s.failsWith_checked (written_of_parse read)
  · exact failsWith_error rfl

theorem failsWith_parseMany (text : String) :
    FailsWith (fun e => e.isAboutForm = false) (s.parseMany text) := by
  intro e failed
  obtain ⟨before, block, after, split, -, failed⟩ := mapM_eq_error_iff.mp failed
  have mem : block ∈ Text.blocks text.toList := by simp [split]
  unfold ofBlock at failed
  split at failed
  · next r read => exact s.failsWith_checked (written_of_ofBlock mem read) e failed
  · obtain rfl := Except.error.inj failed
    rfl

end Service

/-- Every rule that comes out of a text is well formed, under either policy and before any check. So
    a service never finds fault with the form of its name, or its calculation missing. -/
theorem wellFormed_of_text :
    (∀ policy text rules, Rule.parseAll policy text = .ok rules → ∀ r ∈ rules, r.WellFormed) ∧
    ∀ (s : Service) (text : String) (e : RuleError),
      s.parse text = .error e ∨ s.parseMany text = .error e → e.isAboutForm = false := by
  refine ⟨fun policy text rules read => wellFormed_of_parseAll read, ?_⟩
  intro s text e failed
  rcases failed with failed | failed
  · exact s.failsWith_parse text e failed
  · exact s.failsWith_parseMany text e failed

/-- Sections in another order, a priority out of range, blanks behind the name and in the notes. -/
def seasonalText : String :=
  "Seasonal bonus   ( 0 )\nNotes\n  until\tMay \n\tWhen due\n" ++
    "Then\n    rate * 2 \r\nWhen\nrate in [1.5, -2, x]"

def seasonal : Rule where
  name := "Seasonal bonus"
  priority := 0
  conditions := [⟨"rate", .isIn,
    .list [.float (.ofDecimal false ⟨15, -1⟩), .int (-2), .text "x"]⟩]
  calculation := "rate * 2"
  notes := some "until\tMay\nWhen due"

theorem wellFormed_of_text_seasonal :
    Rule.parseAll .strict seasonalText = .ok [seasonal] ∧ seasonal.WellFormed ∧
    Service.parse {} seasonalText = .error (.validation (.priorityOutOfRange 0)) ∧
    (RuleError.validation (.priorityOutOfRange 0)).isAboutForm = false := by
  have read : Rule.parseAll .strict seasonalText = .ok [seasonal] := by
    apply toOption_eq_some_iff.mp
    decide +kernel
  have failed : Service.parse {} seasonalText = .error (.validation (.priorityOutOfRange 0)) := by
    apply failure?_eq_some_iff.mp
    decide +kernel
  exact ⟨read, wellFormed_of_text.1 .strict _ _ read seasonal (by simp), failed,
    wellFormed_of_text.2 {} _ _ (.inl failed)⟩

end Commission
