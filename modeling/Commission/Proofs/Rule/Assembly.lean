import Commission.Proofs.Rule.Sections
import Commission.Proofs.Text.Scanning

/-!
What a block says, read by section rather than line by line. Main statement:
`ofBlock_eq_reading`.
-/
namespace Commission

open Text (NumberedLine)

namespace Block

def notes (block : List NumberedLine) : List String :=
  (linesIn (some .notes) block).map fun line => String.ofList line.body

/-- The calculation of a block: the last line of its calculation sections. -/
def calculation? (block : List NumberedLine) : Option String :=
  (linesIn (some .calculation) block).getLast?.map fun line => String.ofList line.body

/-- The rule that the sections of a block make up. The first line of a condition section that is
    no condition counts before a missing header, and that before a missing calculation. -/
def reading (block : List NumberedLine) : Except ParseError Rule := do
  let conditions ← (linesIn (some .conditions) block).mapM NumberedLine.condition
  match (headers block).getLast?, calculation? block with
  | none, _ => .error .missingHeader
  | some (name, _), none => .error (.missingCalculation name)
  | some (name, priority), some text =>
    let notes := if (notes block).isEmpty then none else some ("\n".intercalate (notes block))
    .ok ⟨name, priority, conditions, text, notes⟩

def draft (block : List NumberedLine) (conditions : List Condition) : Draft where
  header := (headers block).getLast?
  inside := openSection block
  conditions := conditions
  calculation := calculation? block
  notes := notes block

section Concat
variable {block : List NumberedLine} {line : NumberedLine} (cs : List Condition)

theorem draft_concat_marker {s : Section} (opens : line.opens? = some s) :
    draft (block ++ [line]) cs = { draft block cs with inside := some s } := by
  simp [draft, headers, calculation?, notes, linesIn_concat_marker _ _ opens, openSection_concat,
    opens]

theorem draft_concat_condition (plain : line.opens? = none)
    (place : openSection block = some .conditions) (c : Condition) :
    draft (block ++ [line]) (cs ++ [c]) = { draft block cs with conditions := cs ++ [c] } := by
  simp [draft, headers, calculation?, notes, linesIn_concat_elsewhere, place, openSection_concat,
    plain]

theorem draft_concat_calculation (plain : line.opens? = none)
    (place : openSection block = some .calculation) :
    draft (block ++ [line]) cs =
      { draft block cs with calculation := some (String.ofList line.body) } := by
  simp [draft, headers, calculation?, notes, linesIn_concat, place, openSection_concat, plain]

theorem draft_concat_note (plain : line.opens? = none)
    (place : openSection block = some .notes) :
    draft (block ++ [line]) cs =
      { draft block cs with notes := notes block ++ [String.ofList line.body] } := by
  simp [draft, headers, calculation?, notes, linesIn_concat, place, openSection_concat, plain]

theorem draft_concat_header {h : String × Int64} (plain : line.opens? = none)
    (place : openSection block = none) (header : line.header? = some h) :
    draft (block ++ [line]) cs = { draft block cs with header := some h } := by
  simp [draft, headers, calculation?, notes, linesIn_concat, place, openSection_concat, plain,
    header]

theorem draft_concat_stray (plain : line.opens? = none)
    (place : openSection block = none) (noHeader : line.header? = none) :
    draft (block ++ [line]) cs = draft block cs := by
  simp [draft, headers, calculation?, notes, linesIn_concat, place, openSection_concat, plain,
    noHeader]

end Concat

theorem step_draft (block : List NumberedLine) (line : NumberedLine) (cs : List Condition) :
    (draft block cs).step .lenient line =
      if openSection block = some .conditions ∧ line.opens? = none then
        line.condition.map fun c => draft (block ++ [line]) (cs ++ [c])
      else .ok (draft (block ++ [line]) cs) := by
  cases opened : line.opens? with
  | some s =>
    rw [Draft.step_marker _ opened, draft_concat_marker cs opened]
    simp
  | none =>
    cases place : openSection block with
    | none =>
      cases header : line.header? with
      | some h =>
        rw [Draft.step_header _ opened place header, draft_concat_header cs opened place header]
        simp
      | none =>
        rw [Draft.step_stray _ opened place header, draft_concat_stray cs opened place header]
        simp
    | some s =>
      cases s with
      | conditions =>
        rw [Draft.step_condition _ opened place]
        simp only [draft_concat_condition cs opened place, and_self, if_true]
        rfl
      | calculation =>
        rw [Draft.step_calculation _ opened place, draft_concat_calculation cs opened place]
        simp
      | notes =>
        rw [Draft.step_note _ opened place, draft_concat_note cs opened place]
        simp [draft]

theorem conditions_concat (block : List NumberedLine) (line : NumberedLine) :
    (linesIn (some .conditions) (block ++ [line])).mapM NumberedLine.condition =
      (linesIn (some .conditions) block).mapM NumberedLine.condition >>= fun cs =>
        if openSection block = some .conditions ∧ line.opens? = none then
          line.condition.map fun c => cs ++ [c]
        else .ok cs := by
  rw [linesIn_concat, List.mapM_append]
  congr 1
  funext cs
  split
  · rw [List.mapM_cons]
    cases line.condition <;> rfl
  · simp [pure, Except.pure, Bind.bind, Except.bind]

theorem foldlM_lenient (block : List NumberedLine) :
    block.foldlM (Draft.step .lenient) {} =
      ((linesIn (some .conditions) block).mapM NumberedLine.condition).map (draft block) := by
  induction block using List.reverseRecOn with
  | nil => rfl
  | append_singleton block line ih =>
    rw [foldlM_concat, ih, conditions_concat]
    cases (linesIn (some .conditions) block).mapM NumberedLine.condition with
    | error e => rfl
    | ok cs =>
      have step := step_draft block line cs
      show (draft block cs).step .lenient line = _
      rw [step]
      simp only [Bind.bind, Except.bind]
      split
      · cases line.condition <;> rfl
      · rfl

theorem finish_draft (block : List NumberedLine) (conditions : List Condition) :
    (draft block conditions).finish =
      match (headers block).getLast?, calculation? block with
      | none, _ => .error .missingHeader
      | some (name, _), none => .error (.missingCalculation name)
      | some (name, priority), some text =>
        let notes := if (notes block).isEmpty then none else some ("\n".intercalate (notes block))
        .ok ⟨name, priority, conditions, text, notes⟩ := by
  have tight : ∀ text ∈ calculation? block, trimmed text = text := by
    intro text mem
    obtain ⟨line, -, rfl⟩ := Option.map_eq_some_iff.mp mem
    rw [trimmed, String.toList_ofList, NumberedLine.body, Text.trim_trim]
  rw [Draft.finish, draft]
  cases (headers block).getLast? with
  | none => rfl
  | some h =>
    cases calculation : calculation? block with
    | none => rfl
    | some text => simp [tight text calculation]

theorem ofBlock_lenient (block : List NumberedLine) :
    Rule.ofBlock .lenient block = reading block := by
  rw [Rule.ofBlock, foldlM_lenient, reading]
  cases (linesIn (some .conditions) block).mapM NumberedLine.condition with
  | error e => rfl
  | ok conditions => exact finish_draft block conditions

end Block

end Commission
