import Commission.Proofs.Rule.Header
import Commission.Proofs.Rule.Renumbering

/-!
Reading the lines of a written rule, one after the other. The header, the markers, the calculation
and the notes are read as they stand, the conditions as their values are read.
-/
namespace Commission

def Condition.echo? (c : Condition) : Option Condition :=
  c.value.echo?.map fun echo => { c with value := echo }

def Rule.echo? (r : Rule) : Option Rule :=
  (r.conditions.mapM Condition.echo?).map fun echoes => { r with conditions := echoes }

/-! ## Numbers of lines -/

/-- What a line makes of a draft if it is no error. Where the line stands does not matter then. -/
def Draft.after (policy : Policy) (d : Draft) (line : List Char) : Option Draft :=
  (d.step policy ⟨1, line⟩).toOption

theorem step_eq (policy : Policy) (d : Draft) (number : Nat) (line : List Char) :
    (d.step policy ⟨number, line⟩).toOption =
      (Line.contentOf number (Line.depthOf (Text.trimEnd line)) (Text.trim line)
        d.inside).toOption.bind fun content => (d.push policy number content).toOption := by
  unfold Draft.step Line.read
  simp only
  cases Line.contentOf number (Line.depthOf (Text.trimEnd line)) (Text.trim line) d.inside <;> rfl

theorem step_toOption (policy : Policy) (d : Draft) (line : Text.NumberedLine) :
    (d.step policy line).toOption = d.after policy line.text := by
  have first := step_renumber policy (fun _ => 1) d line
  rw [← toOption_mapError, ← first]
  rfl

theorem foldlM_toOption (policy : Policy) (block : List Text.NumberedLine) (d : Draft) :
    (block.foldlM (Draft.step policy) d).toOption =
      (block.map Text.NumberedLine.text).foldlM (Draft.after policy) d := by
  induction block generalizing d with
  | nil => rfl
  | cons line block ih =>
    have first := step_toOption policy d line
    rw [List.map_cons, List.foldlM_cons, List.foldlM_cons, ← first]
    cases d.step policy line with
    | error e => rfl
    | ok next => exact ih next

/-! ## The shape of lines -/

theorem tight_keyword (s : Section) : Text.Tight s.keyword.toList := by
  cases s <;> simp [Text.Tight, Section.keyword, Text.isBlank]

theorem indented_trim {line : List Char} (filled : line ≠ []) (tight : Text.Tight line) :
    Text.trim (Rule.indented line) = line :=
  Text.trim_indent (List.all_eq_true.mp (by decide)) filled tight

theorem ruleText_last (v : Value) :
    v.ruleText ≠ [] ∧ ∀ c ∈ v.ruleText.getLast?, Text.isBlank c = false := by
  cases v with
  | scalar s => exact ⟨s.ruleText_ne_nil, fun c mem => isBlank_of_bare (s.bare_ends.2 c mem)⟩
  | list items =>
    refine ⟨by simp [Value.ruleText], ?_⟩
    rw [Value.ruleText, List.getLast?_concat]
    simp [Text.isBlank]

theorem noFeed_value (v : Value) : '\n' ∉ v.ruleText := by
  cases v with
  | scalar s => exact s.noFeed_ruleText
  | list items =>
    cases items with
    | nil => decide
    | cons s items =>
      rw [Value.ruleText, Reading.intercalate_items]
      simp [Reading.tailText, Scalar.noFeed_ruleText]

theorem noFeed_identifier {name : List Char} (named : Text.Identifier.isIdentifier name) :
    '\n' ∉ name := by
  intro mem
  have part := Text.Identifier.isPart_of_mem named '\n' mem
  contradiction

theorem bodyLine_condition {c : Condition}
    (named : Text.Identifier.isIdentifier c.field.toList) : BodyLine c.ruleText := by
  obtain ⟨d, tail, field, start⟩ := Text.Identifier.head_of_isIdentifier named
  obtain ⟨filled, last⟩ := ruleText_last c.value
  rw [Reading.ruleText_eq]
  refine ⟨by simp, (Text.trim_eq_self_iff _).mpr ⟨?_, ?_⟩, ?_, ?_⟩
  · rw [field]
    intro e mem
    obtain rfl : d = e := by simpa using mem
    exact Text.isBlank_of_isStart start
  · have split : c.field.toList ++ ' ' :: (c.operator.symbol.toList ++ ' ' :: c.value.ruleText) =
        (c.field.toList ++ ' ' :: c.operator.symbol.toList ++ [' ']) ++ c.value.ruleText := by
      simp
    rw [split, Text.getLast?_append_filled _ filled]
    exact last
  · have symbol : '\n' ∉ c.operator.symbol.toList := by
      cases c.operator <;> decide
    simp [noFeed_identifier named, symbol, noFeed_value]
  · intro s same
    have space := isAlpha_keyword s ' ' (by rw [same]; simp)
    contradiction

/-! ## One line after the other -/

section Lines
variable (policy : Policy)

theorem after_eq {d : Draft} {line body : List Char} {inside : Option Section}
    (trim : Text.trim line = body) (stands : d.inside = inside) :
    d.after policy line =
      (Line.contentOf 1 (Line.depthOf (Text.trimEnd line)) body inside).toOption.bind
        fun content => (d.push policy 1 content).toOption := by
  rw [Draft.after, step_eq, trim, stands]

theorem after_header {name : String} (named : RuleName name.toList) (priority : Int64) :
    Draft.after policy {} (Rule.headerText name priority) =
      some { header := some (name, priority) } := by
  have body := bodyLine_header named priority
  have ends := Text.trimEnd_of_last body.tight.2
  have none := (marker?_eq_none_iff _).mpr body.noMarker
  rw [after_eq policy body.trimmed rfl, ends, depthOf_header named, Line.contentOf, none]
  simp only [header?_headerText named, and_self, if_true]
  rfl

theorem after_marker (d : Draft) (s : Section) :
    d.after policy s.keyword.toList = some { d with inside := some s } := by
  have trim : Text.trim s.keyword.toList = s.keyword.toList := Text.trim_of_tight (tight_keyword s)
  have found : Reading.marker? s.keyword.toList = some s := by cases s <;> decide
  rw [after_eq policy trim rfl, Line.contentOf, found]
  rfl

theorem after_calculation {line : List Char} (body : BodyLine line) {d : Draft}
    (stands : d.inside = some .calculation) :
    d.after policy (Rule.indented line) =
      some { d with calculation := some (String.ofList line) } := by
  have none := (marker?_eq_none_iff line).mpr body.noMarker
  rw [after_eq policy (indented_trim body.filled body.tight) stands, Line.contentOf, none]
  simp [Except.toOption, Draft.push, stands]

theorem after_note {line : List Char} (body : BodyLine line) {d : Draft}
    (stands : d.inside = some .notes) :
    d.after policy (Rule.indented line) =
      some { d with notes := d.notes ++ [String.ofList line] } := by
  have none := (marker?_eq_none_iff line).mpr body.noMarker
  rw [after_eq policy (indented_trim body.filled body.tight) stands, Line.contentOf, none]
  simp [Except.toOption, Draft.push, stands]

theorem after_condition {c : Condition} (named : Text.Identifier.isIdentifier c.field.toList)
    {d : Draft} (stands : d.inside = some .conditions) :
    d.after policy (Rule.indented c.ruleText) =
      c.echo?.map fun echo => { d with conditions := d.conditions ++ [echo] } := by
  have body := bodyLine_condition named
  have none := (marker?_eq_none_iff _).mpr body.noMarker
  rw [after_eq policy (indented_trim body.filled body.tight) stands, Line.contentOf, none]
  simp only [Reading.condition_ruleText named, Condition.echo?]
  cases c.value.echo? with
  | none => simp [Except.toOption]
  | some echo => simp [Except.toOption, Draft.push, stands]

/-! ## All lines of a rule -/

theorem after_conditions {cs : List Condition}
    (named : ∀ c ∈ cs, Text.Identifier.isIdentifier c.field.toList) {d : Draft}
    (stands : d.inside = some .conditions) :
    (cs.map fun c => Rule.indented c.ruleText).foldlM (Draft.after policy) d =
      (cs.mapM Condition.echo?).map fun echoes =>
        { d with conditions := d.conditions ++ echoes } := by
  induction cs generalizing d with
  | nil => simp
  | cons c cs ih =>
    rw [List.map_cons, List.foldlM_cons, after_condition policy (named c (by simp)) stands,
      List.mapM_cons]
    cases c.echo? with
    | none => rfl
    | some echo =>
      have later := ih (fun e mem => named e (by simp [mem]))
        (d := { d with conditions := d.conditions ++ [echo] }) stands
      simp only [Option.map_some, Option.bind_eq_bind, Option.bind_some, later]
      cases cs.mapM Condition.echo? <;> simp

theorem after_notes {ls : List (List Char)} (body : ∀ l ∈ ls, BodyLine l) {d : Draft}
    (stands : d.inside = some .notes) :
    (ls.map Rule.indented).foldlM (Draft.after policy) d =
      some { d with notes := d.notes ++ ls.map String.ofList } := by
  induction ls generalizing d with
  | nil => simp
  | cons l ls ih =>
    rw [List.map_cons, List.foldlM_cons, after_note policy (body l (by simp)) stands]
    have later := ih (fun e mem => body e (by simp [mem]))
      (d := { d with notes := d.notes ++ [String.ofList l] }) stands
    simp only [Option.bind_eq_bind, Option.bind_some, later]
    simp

def noteLines (notes : Option String) : List (List Char) :=
  match notes with
  | none => []
  | some notes => Section.notes.keyword.toList :: (Text.lines notes.toList).map Rule.indented

theorem textLines_eq (r : Rule) :
    r.textLines = Rule.headerText r.name r.priority :: Section.conditions.keyword.toList ::
      (r.conditions.map (fun c => Rule.indented c.ruleText) ++
        Section.calculation.keyword.toList :: Rule.indented r.calculation.toList ::
          noteLines r.notes) := by
  cases notes : r.notes <;> simp [Rule.textLines, noteLines, notes]

theorem lines_of_notes {ls : List (List Char)} (body : ∀ l ∈ ls, BodyLine l) :
    Text.lines (['\n'].intercalate ls) = ls :=
  Text.lines_joined (fun l mem => (body l mem).filled)
    fun l mem => Text.unbroken_of_tight (body l mem).noFeed (body l mem).tight

theorem finish_notes {r : Rule} (written : r.Written) (d : Draft) (blank : d.notes = [])
    (header : d.header = some (r.name, r.priority))
    (calculation : d.calculation = some r.calculation) :
    ((noteLines r.notes).foldlM (Draft.after policy) d).bind (fun d => d.finish.toOption) =
      some { r with conditions := d.conditions } := by
  have trim : trimmed r.calculation = r.calculation := by
    rw [trimmed, written.calculation.trimmed, String.ofList_toList]
  cases notes : r.notes with
  | none =>
    simp [noteLines, Draft.finish, header, calculation, blank, trim, Except.toOption]
  | some text =>
    obtain ⟨ls, filled, body, joined⟩ := written.notes text (by rw [notes]; rfl)
    have same : "\n".intercalate (ls.map String.ofList) = text := by
      rw [← String.toList_inj, String.toList_intercalate, joined]
      simp
    simp only [noteLines, joined, lines_of_notes body, List.foldlM_cons, after_marker,
      Option.bind_eq_bind, Option.bind_some]
    rw [after_notes policy body rfl]
    simp [Draft.finish, header, calculation, blank, trim, same, filled, Except.toOption]

theorem ofBlock_textLines {r : Rule} (written : r.Written) {block : List Text.NumberedLine}
    (texts : block.map Text.NumberedLine.text = r.textLines) :
    (Rule.ofBlock policy block).toOption = r.echo? := by
  have read : (Rule.ofBlock policy block).toOption =
      (r.textLines.foldlM (Draft.after policy) {}).bind fun d => d.finish.toOption := by
    rw [← texts, ← foldlM_toOption, Rule.ofBlock]
    cases block.foldlM (Draft.step policy) {} <;> rfl
  rw [read, textLines_eq]
  simp only [List.foldlM_cons, List.foldlM_append, after_header policy written.name, after_marker,
    Option.bind_eq_bind, Option.bind_some]
  rw [after_conditions policy written.fields rfl, Rule.echo?]
  cases r.conditions.mapM Condition.echo? with
  | none => rfl
  | some echoes =>
    simp only [Option.map_some, Option.bind_some]
    rw [after_calculation policy written.calculation rfl, Option.bind_some,
      finish_notes policy written _ rfl rfl (by simp)]
    rfl

end Lines

end Commission
