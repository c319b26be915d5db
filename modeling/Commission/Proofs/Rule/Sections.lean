import Commission.Proofs.Failure
import Commission.Rule.Draft
import Mathlib.Data.List.Induction

/-!
The lines of a block by section. A line belongs to the nearest marker above it, and to no section
before the first marker. What a line does to a draft depends on the section that stands open; the
`step_` lemmas say it for each kind of line.
-/
namespace Commission

open Text (NumberedLine)

namespace Text.NumberedLine

def body (line : NumberedLine) : List Char := trim line.text

def opens? (line : NumberedLine) : Option Section := Reading.marker? line.body

def header? (line : NumberedLine) : Option (String × Int64) :=
  if Line.depthOf (trimEnd line.text) = 0 then Reading.header? line.body else none

def condition (line : NumberedLine) : Except ParseError Condition :=
  (Reading.condition line.body).mapError fun expected =>
    .unreadable line.number (String.ofList line.body) (expected ++ [.sectionMarker])

def stray (line : NumberedLine) : LineContent :=
  match Reading.condition line.body with
  | .ok c => .condition c
  | .error _ => .calculation (String.ofList line.body)

def contentIn (line : NumberedLine) (inside : Option Section) : Except ParseError LineContent :=
  Line.contentOf line.number (Line.depthOf (trimEnd line.text)) line.body inside

section Content
variable {line : NumberedLine}

theorem contentIn_marker {s : Section} (opens : line.opens? = some s) (inside : Option Section) :
    line.contentIn inside = .ok (.marker s) := by
  have marker : Reading.marker? line.body = some s := opens
  rw [contentIn, Line.contentOf, marker]

theorem contentIn_conditions (plain : line.opens? = none) :
    line.contentIn (some .conditions) = line.condition.map .condition := by
  have marker : Reading.marker? line.body = none := plain
  simp only [contentIn, Line.contentOf, marker, condition, reduceCtorEq, and_false, if_false]
  cases Reading.condition line.body <;> rfl

theorem contentIn_calculation (plain : line.opens? = none) :
    line.contentIn (some .calculation) = .ok (.calculation (String.ofList line.body)) := by
  have marker : Reading.marker? line.body = none := plain
  simp [contentIn, Line.contentOf, marker]

theorem contentIn_notes (plain : line.opens? = none) :
    line.contentIn (some .notes) = .ok (.note (String.ofList line.body)) := by
  have marker : Reading.marker? line.body = none := plain
  simp [contentIn, Line.contentOf, marker]

theorem contentIn_none (plain : line.opens? = none) :
    line.contentIn none =
      match line.header? with
      | some h => .ok (.header h.1 h.2)
      | none => .ok line.stray := by
  have marker : Reading.marker? line.body = none := plain
  rw [contentIn, Line.contentOf, marker, header?, stray]
  simp only [and_true]
  split
  · next found => rw [found]
  · next found =>
    rw [found]
    cases Reading.condition line.body <;> rfl

end Content

end Text.NumberedLine

namespace Block

def openSection (above : List NumberedLine) : Option Section :=
  (above.filterMap NumberedLine.opens?).getLast?

/-- Each line with the section of the nearest marker above it. -/
def placed (block : List NumberedLine) : List (Option Section × NumberedLine) :=
  block.mapIdx fun i line => (openSection (block.take i), line)

/-- The lines at one place, markers apart; the place `none` is above the first marker. -/
def linesIn (place : Option Section) (block : List NumberedLine) : List NumberedLine :=
  ((placed block).filter fun l => l.1 = place ∧ l.2.opens? = none).map Prod.snd

def headers (block : List NumberedLine) : List (String × Int64) :=
  (linesIn none block).filterMap NumberedLine.header?

theorem openSection_concat (above : List NumberedLine) (line : NumberedLine) :
    openSection (above ++ [line]) = line.opens?.or (openSection above) := by
  rw [openSection, List.filterMap_append, List.getLast?_append]
  cases opened : line.opens? with
  | none => simp [opened, openSection]
  | some s => simp [opened]

theorem openSection_eq_none_iff (above : List NumberedLine) :
    openSection above = none ↔ ∀ l ∈ above, l.opens? = none := by
  rw [openSection, List.getLast?_eq_none_iff, List.filterMap_eq_nil_iff]

theorem placed_concat (block : List NumberedLine) (line : NumberedLine) :
    placed (block ++ [line]) = placed block ++ [(openSection block, line)] := by
  rw [placed, List.mapIdx_concat, List.take_left]
  congr 1
  apply List.mapIdx_eq_mapIdx_iff.mpr
  intro i inside
  rw [List.take_append_of_le_length (Nat.le_of_lt inside)]

theorem linesIn_concat (place : Option Section) (block : List NumberedLine) (line : NumberedLine) :
    linesIn place (block ++ [line]) =
      linesIn place block ++
        if openSection block = place ∧ line.opens? = none then [line] else [] := by
  rw [linesIn, placed_concat, List.filter_append, List.map_append]
  congr 1
  by_cases here : openSection block = place ∧ line.opens? = none
  · simp [here]
  · rw [if_neg here, List.filter_cons_of_neg (by simpa using here)]
    rfl

theorem linesIn_concat_marker (place : Option Section) (block : List NumberedLine)
    {line : NumberedLine} {s : Section} (opens : line.opens? = some s) :
    linesIn place (block ++ [line]) = linesIn place block := by
  simp [linesIn_concat, opens]

theorem linesIn_concat_elsewhere {place : Option Section} {block : List NumberedLine}
    (other : openSection block ≠ place) (line : NumberedLine) :
    linesIn place (block ++ [line]) = linesIn place block := by
  simp [linesIn_concat, other]

theorem openSection_append_plain (block : List NumberedLine) {lines : List NumberedLine}
    (plain : ∀ line ∈ lines, line.opens? = none) :
    openSection (block ++ lines) = openSection block := by
  have none := List.filterMap_eq_nil_iff.mpr plain
  rw [openSection, List.filterMap_append, none, List.append_nil]
  rfl

theorem linesIn_append_plain (place : Option Section) (block : List NumberedLine)
    {lines : List NumberedLine} (plain : ∀ line ∈ lines, line.opens? = none) :
    linesIn place (block ++ lines) =
      linesIn place block ++ if openSection block = place then lines else [] := by
  induction lines using List.reverseRecOn with
  | nil => simp
  | append_singleton lines line ih =>
    have before : ∀ l ∈ lines, l.opens? = none := by
      intro l mem
      exact plain l (by simp [mem])
    have last : line.opens? = none := plain line (by simp)
    rw [← List.append_assoc, linesIn_concat, ih before, openSection_append_plain block before]
    by_cases here : openSection block = place <;> simp [here, last]

theorem linesIn_plain (place : Option Section) {lines : List NumberedLine}
    (plain : ∀ line ∈ lines, line.opens? = none) :
    linesIn place lines = if place = none then lines else [] := by
  simpa [linesIn, placed, openSection, eq_comm] using linesIn_append_plain place [] plain

end Block

/-! ## What a line does to a draft -/

namespace Draft
variable (policy : Policy) {d : Draft} {line : NumberedLine}

theorem step_eq_push (d : Draft) (line : NumberedLine) :
    d.step policy line = line.contentIn d.inside >>= fun content =>
      d.push policy line.number content := by
  rw [step, Line.read, NumberedLine.contentIn, NumberedLine.body]
  cases Line.contentOf line.number (Line.depthOf (Text.trimEnd line.text)) (Text.trim line.text)
    d.inside <;> rfl

theorem step_of_content {content : LineContent} (holds : line.contentIn d.inside = .ok content) :
    d.step policy line = d.push policy line.number content := by
  rw [step_eq_push, holds]
  rfl

theorem step_marker {s : Section} (opens : line.opens? = some s) :
    d.step policy line = .ok { d with inside := some s } := by
  rw [step_of_content policy (NumberedLine.contentIn_marker opens d.inside), push]

theorem step_condition (plain : line.opens? = none) (inside : d.inside = some .conditions) :
    d.step policy line =
      line.condition.map fun c => { d with conditions := d.conditions ++ [c] } := by
  rw [step_eq_push, inside, NumberedLine.contentIn_conditions plain]
  cases line.condition with
  | error e => rfl
  | ok c => simp [Except.map, Bind.bind, Except.bind, push, inside]

theorem step_calculation (plain : line.opens? = none) (inside : d.inside = some .calculation) :
    d.step policy line = .ok { d with calculation := some (String.ofList line.body) } := by
  rw [step_eq_push, inside, NumberedLine.contentIn_calculation plain]
  simp [Bind.bind, Except.bind, push, inside]

theorem step_note (plain : line.opens? = none) (inside : d.inside = some .notes) :
    d.step policy line = .ok { d with notes := d.notes ++ [String.ofList line.body] } := by
  rw [step_eq_push, inside, NumberedLine.contentIn_notes plain]
  simp [Bind.bind, Except.bind, push, inside]

theorem step_header {h : String × Int64} (plain : line.opens? = none) (outside : d.inside = none)
    (header : line.header? = some h) :
    d.step policy line =
      if d.header.isSome ∧ policy = .strict then .error (.duplicateHeader line.number h.1)
      else .ok { d with header := some h } := by
  have holds : line.contentIn d.inside = .ok (.header h.1 h.2) := by
    rw [outside, NumberedLine.contentIn_none plain, header]
  rw [step_of_content policy holds, push]

theorem step_stray (plain : line.opens? = none) (outside : d.inside = none)
    (noHeader : line.header? = none) :
    d.step policy line =
      match policy with
      | .strict => .error (.outsideSection line.number line.stray.describe)
      | .lenient => .ok d := by
  have holds : line.contentIn d.inside = .ok line.stray := by
    rw [outside, NumberedLine.contentIn_none plain, noHeader]
  rw [step_of_content policy holds, NumberedLine.stray]
  cases Reading.condition line.body <;> cases policy <;> simp [push, outside]

end Draft

end Commission
