import Commission.Proofs.Text.Paragraphs
import Commission.Rule.Draft
import Commission.Rule.Validation

/-!
Rules as reading makes them. A written rule has a name, fields, a calculation and notes that could
stand in a text; a canonical one has finite numbers as well. Main statement: `written_of_parse`,
every rule read from a text is written.
-/
namespace Commission

structure BodyLine (line : List Char) : Prop where
  filled : line ≠ []
  trimmed : Text.trim line = line
  noFeed : '\n' ∉ line
  noMarker : ∀ s : Section, s.keyword.toList ≠ line

structure RuleName (name : List Char) : Prop where
  form : Rule.isName name
  closed : name.getLast? ≠ some ' '

structure Rule.Written (r : Rule) : Prop where
  name : RuleName r.name.toList
  fields : ∀ c ∈ r.conditions, Text.Identifier.isIdentifier c.field.toList
  calculation : BodyLine r.calculation.toList
  notes : ∀ text ∈ r.notes, ∃ ls, ls ≠ [] ∧ (∀ l ∈ ls, BodyLine l) ∧
    text.toList = ['\n'].intercalate ls

def Scalar.isFinite : Scalar → Bool
  | float x => x.isFinite
  | _ => true

def Value.isFinite : Value → Bool
  | scalar s => s.isFinite
  | list items => items.all Scalar.isFinite

def Rule.isFinite (r : Rule) : Bool := r.conditions.all fun c => c.value.isFinite

structure Rule.Canonical (r : Rule) : Prop extends r.Written where
  finite : r.isFinite

/-! ## Lines -/

theorem BodyLine.tight {line : List Char} (body : BodyLine line) : Text.Tight line :=
  (Text.trim_eq_self_iff line).mp body.trimmed

theorem marker?_eq_none_iff (line : List Char) :
    Reading.marker? line = none ↔ ∀ s : Section, s.keyword.toList ≠ line := by
  simp only [Reading.marker?, List.find?_eq_none, decide_eq_true_eq]
  constructor
  · intro none s
    exact none s (by cases s <;> simp)
  · intro none s _
    exact none s

theorem isAlpha_keyword (s : Section) : ∀ c ∈ s.keyword.toList, c.isAlpha :=
  List.all_eq_true.mp (by cases s <;> decide)

theorem bodyLine_iff (line : List Char) :
    BodyLine line ↔ line ≠ [] ∧ Text.trim line = line ∧ '\n' ∉ line ∧
      Reading.marker? line = none := by
  rw [marker?_eq_none_iff]
  constructor
  · rintro ⟨filled, trimmed, noFeed, noMarker⟩
    exact ⟨filled, trimmed, noFeed, noMarker⟩
  · rintro ⟨filled, trimmed, noFeed, noMarker⟩
    exact ⟨filled, trimmed, noFeed, noMarker⟩

instance (line : List Char) : Decidable (BodyLine line) :=
  decidable_of_iff _ (bodyLine_iff line).symm

theorem bodyLine_of_trim {text : List Char} (solid : Text.isBlankLine text = false)
    (noFeed : '\n' ∉ text) (none : Reading.marker? (Text.trim text) = none) :
    BodyLine (Text.trim text) where
  filled := Text.trim_ne_nil solid
  trimmed := Text.trim_trim text
  noFeed mem := noFeed (Text.mem_of_mem_trim mem)
  noMarker := (marker?_eq_none_iff _).mp none

/-! ## Names -/

theorem ruleName_iff (name : List Char) :
    RuleName name ↔ Rule.isName name ∧ name.getLast? ≠ some ' ' := by
  constructor
  · rintro ⟨form, closed⟩
    exact ⟨form, closed⟩
  · rintro ⟨form, closed⟩
    exact ⟨form, closed⟩

instance (name : List Char) : Decidable (RuleName name) :=
  decidable_of_iff _ (ruleName_iff name).symm

theorem isBlank_of_isNamePart {c : Char} (part : Reading.isNamePart c) (other : c ≠ ' ') :
    Text.isBlank c = false := by
  simp only [Reading.isNamePart, Bool.or_eq_true, beq_iff_eq] at part
  rcases part with (solid | rfl) | space
  · exact Text.isBlank_of_isAlphanum solid
  · decide
  · contradiction

theorem ruleName?_parts {cs name rest : List Char}
    (read : Reading.ruleName? cs = some (name, rest)) :
    ∃ c tail, name = c :: tail ∧ c.isAlpha ∧ ∀ d ∈ tail, Reading.isNamePart d := by
  cases cs with
  | nil => contradiction
  | cons c cs =>
    simp only [Reading.ruleName?] at read
    split at read
    · next letter =>
      obtain ⟨rfl, -⟩ := by simpa using read
      exact ⟨c, _, rfl, letter, fun d mem => Text.mem_takeWhile mem⟩
    · contradiction

theorem isNamePart_of_isAlpha {c : Char} (letter : c.isAlpha) : Reading.isNamePart c := by
  simp [Reading.isNamePart, Char.isAlphanum, letter]

theorem ruleName_trimEnd {c : Char} {tail : List Char} (letter : c.isAlpha)
    (parts : ∀ d ∈ tail, Reading.isNamePart d) : RuleName (Text.trimEnd (c :: tail)) := by
  have solid : Text.isBlank c = false :=
    isBlank_of_isNamePart (isNamePart_of_isAlpha letter) (by rintro rfl; contradiction)
  obtain ⟨after, split, blank⟩ := Text.trimEnd_split (c :: tail)
  cases name : Text.trimEnd (c :: tail) with
  | nil =>
    rw [name, List.nil_append] at split
    have := blank c (by simp [← split])
    rw [solid] at this
    contradiction
  | cons d ds =>
    rw [name, List.cons_append] at split
    obtain ⟨rfl, rest⟩ := List.cons.inj split
    refine ⟨?_, fun last => ?_⟩
    · simp only [Rule.isName, letter, Bool.true_and, List.all_eq_true]
      intro e mem
      exact parts e (by rw [rest]; simp [mem])
    · have := Text.trimEnd_last (c :: tail) ' ' (by rw [name]; exact last)
      contradiction

theorem ruleName_of_header? {cs : List Char} {name : String} {priority : Int64}
    (read : Reading.header? cs = some (name, priority)) : RuleName name.toList := by
  rw [Reading.header?] at read
  obtain ⟨⟨text, rest⟩, start, read⟩ := Option.bind_eq_some_iff.mp read
  obtain ⟨c, tail, rfl, letter, parts⟩ := ruleName?_parts start
  -- What the name needs was read first; the rest of the line only has to be there.
  obtain ⟨_, -, read⟩ := Option.bind_eq_some_iff.mp read
  obtain ⟨_, -, read⟩ := Option.bind_eq_some_iff.mp read
  obtain ⟨_, -, read⟩ := Option.bind_eq_some_iff.mp read
  obtain ⟨_, -, read⟩ := Option.bind_eq_some_iff.mp read
  obtain ⟨_, -, same⟩ := Option.bind_eq_some_iff.mp read
  obtain ⟨rfl, -⟩ := by simpa using same
  rw [String.toList_ofList]
  exact ruleName_trimEnd letter parts

theorem isIdentifier_of_condition {cs : List Char} {c : Condition}
    (read : Reading.condition cs = .ok c) : Text.Identifier.isIdentifier c.field.toList := by
  unfold Reading.condition at read
  split at read
  · contradiction
  · next field rest found =>
    have named := (Text.Identifier.read?_eq_some found).2.1
    repeat' split at read
    all_goals try contradiction
    obtain rfl := Except.ok.inj read
    simpa using named

/-! ## What reading keeps -/

def LineContent.Written : LineContent → Prop
  | header name _ => RuleName name.toList
  | marker _ => True
  | condition c => Text.Identifier.isIdentifier c.field.toList
  | calculation text | note text => BodyLine text.toList

structure Draft.Written (d : Draft) : Prop where
  header : ∀ h ∈ d.header, RuleName h.1.toList
  fields : ∀ c ∈ d.conditions, Text.Identifier.isIdentifier c.field.toList
  calculation : ∀ text ∈ d.calculation, BodyLine text.toList
  notes : ∀ text ∈ d.notes, BodyLine text.toList

theorem written_of_contentOf {number depth : Nat} {text : List Char} {inside : Option Section}
    {content : LineContent} (solid : Text.isBlankLine text = false) (noFeed : '\n' ∉ text)
    (read : Line.contentOf number depth (Text.trim text) inside = .ok content) :
    content.Written := by
  unfold Line.contentOf at read
  split at read
  · obtain rfl := Except.ok.inj read
    trivial
  · next none =>
    have body := bodyLine_of_trim solid noFeed none
    split at read
    · next found =>
      obtain rfl := Except.ok.inj read
      split at found
      · exact ruleName_of_header? found
      · contradiction
    · split at read
      · split at read
        · next c found =>
          obtain rfl := Except.ok.inj read
          exact isIdentifier_of_condition found
        · contradiction
      · obtain rfl := Except.ok.inj read
        simpa [LineContent.Written] using body
      · obtain rfl := Except.ok.inj read
        simpa [LineContent.Written] using body
      · split at read
        · next c found =>
          obtain rfl := Except.ok.inj read
          exact isIdentifier_of_condition found
        · obtain rfl := Except.ok.inj read
          simpa [LineContent.Written] using body

theorem written_push {policy : Policy} {number : Nat} {content : LineContent} {d d' : Draft}
    (written : d.Written) (line : content.Written)
    (pushed : d.push policy number content = .ok d') : d'.Written := by
  have ⟨header, fields, calculation, notes⟩ := written
  unfold Draft.push at pushed
  -- A header, a marker, a condition, a calculation, a note; last what no open section takes.
  split at pushed
  · split at pushed
    · contradiction
    · obtain rfl := Except.ok.inj pushed
      refine ⟨fun h mem => ?_, fields, calculation, notes⟩
      obtain rfl := Option.some.inj mem
      exact line
  · obtain rfl := Except.ok.inj pushed
    exact ⟨header, fields, calculation, notes⟩
  · obtain rfl := Except.ok.inj pushed
    refine ⟨header, fun c mem => ?_, calculation, notes⟩
    rcases List.mem_append.mp mem with mem | mem
    · exact fields c mem
    · obtain rfl := List.mem_singleton.mp mem
      exact line
  · obtain rfl := Except.ok.inj pushed
    refine ⟨header, fields, fun text mem => ?_, notes⟩
    obtain rfl := Option.some.inj mem
    exact line
  · obtain rfl := Except.ok.inj pushed
    refine ⟨header, fields, calculation, fun text mem => ?_⟩
    rcases List.mem_append.mp mem with mem | mem
    · exact notes text mem
    · obtain rfl := List.mem_singleton.mp mem
      exact line
  · split at pushed
    · contradiction
    · obtain rfl := Except.ok.inj pushed
      exact written

theorem written_step {policy : Policy} {d d' : Draft} {line : Text.NumberedLine}
    (solid : Text.isBlankLine line.text = false) (noFeed : '\n' ∉ line.text) (written : d.Written)
    (stepped : d.step policy line = .ok d') : d'.Written := by
  unfold Draft.step Line.read at stepped
  cases read : Line.contentOf line.number (Line.depthOf (Text.trimEnd line.text))
      (Text.trim line.text) d.inside with
  | error e => simp [read, Except.map, Bind.bind, Except.bind] at stepped
  | ok content =>
    have pushed : d.push policy line.number content = .ok d' := by
      simpa [read, Except.map, Bind.bind, Except.bind] using stepped
    exact written_push written (written_of_contentOf solid noFeed read) pushed

theorem foldlM_preserves {α β ε : Type} {step : β → α → Except ε β} (P : β → Prop) {xs : List α}
    (preserve : ∀ x ∈ xs, ∀ b b', P b → step b x = .ok b' → P b') {b b' : β} (start : P b)
    (folded : xs.foldlM step b = .ok b') : P b' := by
  induction xs generalizing b with
  | nil =>
    obtain rfl : b = b' := Except.ok.inj folded
    exact start
  | cons x xs ih =>
    rw [List.foldlM_cons] at folded
    cases first : step b x with
    | error e => simp [first, Bind.bind, Except.bind] at folded
    | ok next =>
      have kept := preserve x (by simp) b next start first
      refine ih (fun y mem => preserve y (by simp [mem])) kept ?_
      simpa [first, Bind.bind, Except.bind] using folded

theorem written_empty : Draft.Written {} :=
  ⟨by simp, by simp, by simp, by simp⟩

theorem written_finish {d : Draft} {r : Rule} (written : d.Written) (finished : d.finish = .ok r) :
    r.Written := by
  unfold Draft.finish at finished
  split at finished
  · contradiction
  · contradiction
  · next name priority text header calculation =>
    obtain rfl := Except.ok.inj finished
    have body := written.calculation text (by rw [calculation]; rfl)
    refine ⟨written.header (name, priority) (by rw [header]; rfl), written.fields, ?_, ?_⟩
    · simp only [trimmed, body.trimmed, String.ofList_toList]
      exact body
    · intro notes mem
      simp only at mem
      split at mem
      · contradiction
      · next filled =>
        obtain rfl := Option.some.inj mem
        refine ⟨d.notes.map String.toList, by simpa using filled, ?_, ?_⟩
        · simpa using written.notes
        · rw [String.toList_intercalate]
          rfl

theorem written_of_ofBlock {policy : Policy} {text : List Char} {block : List Text.NumberedLine}
    (mem : block ∈ Text.blocks text) {r : Rule} (read : Rule.ofBlock policy block = .ok r) :
    r.Written := by
  unfold Rule.ofBlock at read
  cases fold : block.foldlM (Draft.step policy) {} with
  | error e => simp [fold, Bind.bind, Except.bind] at read
  | ok d =>
    have finished : d.finish = .ok r := by
      simpa [fold, Bind.bind, Except.bind] using read
    refine written_finish (foldlM_preserves Draft.Written ?_ written_empty fold) finished
    intro line inside d d' written stepped
    obtain ⟨one, solid⟩ := Text.line_of_mem_blocks mem inside
    exact written_step solid (Text.lines_noFeed text _ one) written stepped

theorem written_of_parse {policy : Policy} {text : String} {r : Rule}
    (read : Rule.parse policy text = .ok r) : r.Written := by
  unfold Rule.parse at read
  split at read
  · contradiction
  · next block one =>
    have mem : block ∈ Text.blocks text.toList := by simp [one]
    exact written_of_ofBlock mem read
  · contradiction

end Commission
