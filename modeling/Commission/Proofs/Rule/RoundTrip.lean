import Commission.Proofs.Failure
import Commission.Proofs.Rule.Recital
import Commission.Service

/-!
Rules and their texts. The joined texts of rules are read as these rules, any number of them, if they
are canonical. Main statement: `canonical_round_trip`.
-/
namespace Commission

/-! ## What is read back unchanged -/

theorem Scalar.echo?_of_isFinite {s : Scalar} (finite : s.isFinite) : s.echo? = some s := by
  cases s with
  | float x =>
    cases x with
    | finite negative m => rfl
    | _ => contradiction
  | _ => rfl

theorem mapM_some {α : Type} {f : α → Option α} {xs : List α} (each : ∀ x ∈ xs, f x = some x) :
    xs.mapM f = some xs := by
  induction xs with
  | nil => rfl
  | cons x xs ih =>
    have later := ih fun y mem => each y (by simp [mem])
    simp [each x (by simp), later]

theorem Value.echo?_of_isFinite {v : Value} (finite : v.isFinite) : v.echo? = some v := by
  cases v with
  | scalar s =>
    rw [echo?, Scalar.echo?_of_isFinite finite]
    rfl
  | list items =>
    have each := List.all_eq_true.mp finite
    rw [echo?, mapM_some fun s mem => Scalar.echo?_of_isFinite (each s mem)]
    rfl

theorem Rule.echo?_of_isFinite {r : Rule} (finite : r.isFinite) : r.echo? = some r := by
  have each := List.all_eq_true.mp finite
  have conditions : r.conditions.mapM Condition.echo? = some r.conditions := by
    refine mapM_some fun c mem => ?_
    rw [Condition.echo?, Value.echo?_of_isFinite (each c mem)]
    rfl
  rw [echo?, conditions]
  rfl

/-! ## The texts of several rules -/

structure ShownLine (line : List Char) : Prop where
  solid : Text.isBlankLine line = false
  unbroken : Text.Unbroken line

theorem BodyLine.shown {line : List Char} (body : BodyLine line) : ShownLine line :=
  ⟨Text.isBlankLine_of_tight body.filled body.tight, Text.unbroken_of_tight body.noFeed body.tight⟩

theorem BodyLine.shown_indented {line : List Char} (body : BodyLine line) :
    ShownLine (Rule.indented line) := by
  obtain ⟨solid, noFeed, noReturn⟩ := body.shown
  refine ⟨?_, ?_, ?_⟩
  · rw [Text.isBlankLine] at solid
    simp [Text.isBlankLine, Rule.indented, solid]
  · simp [Rule.indented, noFeed]
  · rw [Rule.indented, Text.getLast?_append_filled _ body.filled]
    exact noReturn

theorem shown_keyword (s : Section) : ShownLine s.keyword.toList := by
  refine ⟨?_, ?_, ?_⟩ <;> cases s <;> decide

theorem shown_noteLines {r : Rule} (written : r.Written) :
    ∀ line ∈ noteLines r.notes, ShownLine line := by
  intro line mem
  cases notes : r.notes with
  | none => simp [noteLines, notes] at mem
  | some text =>
    obtain ⟨ls, -, body, joined⟩ := written.notes text (by rw [notes]; rfl)
    simp only [noteLines, notes, joined, lines_of_notes body, List.mem_cons, List.mem_map] at mem
    rcases mem with rfl | ⟨note, mem, rfl⟩
    · exact shown_keyword .notes
    · exact (body note mem).shown_indented

theorem shown_textLines {r : Rule} (written : r.Written) :
    ∀ line ∈ r.textLines, ShownLine line := by
  intro line mem
  simp only [textLines_eq, List.mem_cons, List.mem_append, List.mem_map] at mem
  rcases mem with rfl | rfl | ⟨c, mem, rfl⟩ | rfl | rfl | mem
  · exact (bodyLine_header written.name r.priority).shown
  · exact shown_keyword .conditions
  · exact (bodyLine_condition (written.fields c mem)).shown_indented
  · exact shown_keyword .calculation
  · exact written.calculation.shown_indented
  · exact shown_noteLines written line mem

theorem paragraph_textLines {r : Rule} (written : r.Written) : Text.Paragraph r.textLines where
  filled := by simp [textLines_eq]
  solid line mem := (shown_textLines written line mem).solid
  unbroken line mem := (shown_textLines written line mem).unbroken

theorem toList_renders (rs : List Rule) :
    ("\n\n".intercalate (rs.map Rule.render)).toList =
      ['\n', '\n'].intercalate ((rs.map Rule.textLines).map (['\n'].intercalate ·)) := by
  have each : String.toList ∘ Rule.render = (['\n'].intercalate ·) ∘ Rule.textLines := by
    funext r
    simp [Rule.render]
  rw [String.toList_intercalate, List.map_map, List.map_map, each]
  rfl

theorem blocks_renders {rs : List Rule} (written : ∀ r ∈ rs, r.Written) :
    (Text.blocks ("\n\n".intercalate (rs.map Rule.render)).toList).map
      (List.map Text.NumberedLine.text) = rs.map Rule.textLines := by
  rw [toList_renders]
  apply Text.blocks_paragraphs
  intro p mem
  obtain ⟨r, inside, rfl⟩ := List.mem_map.mp mem
  exact paragraph_textLines (written r inside)

theorem ofBlock_canonical (policy : Policy) {r : Rule} (canonical : r.Canonical)
    {block : List Text.NumberedLine} (texts : block.map Text.NumberedLine.text = r.textLines) :
    Rule.ofBlock policy block = .ok r := by
  rw [← toOption_eq_some_iff, ofBlock_textLines policy canonical.toWritten texts]
  exact Rule.echo?_of_isFinite canonical.finite

theorem mapM_blocks {ε : Type} {read : List Text.NumberedLine → Except ε Rule} {rs : List Rule}
    (each : ∀ r ∈ rs, ∀ block, block.map Text.NumberedLine.text = r.textLines → read block = .ok r)
    {blocks : List (List Text.NumberedLine)}
    (texts : blocks.map (List.map Text.NumberedLine.text) = rs.map Rule.textLines) :
    blocks.mapM read = .ok rs := by
  induction rs generalizing blocks with
  | nil =>
    obtain rfl : blocks = [] := by simpa using texts
    rfl
  | cons r rs ih =>
    cases blocks with
    | nil => simp at texts
    | cons block blocks =>
      obtain ⟨first, rest⟩ := List.cons.inj texts
      have later := ih (fun s mem => each s (by simp [mem])) rest
      rw [List.mapM_cons, each r (by simp) block first, later]
      rfl

theorem checked_of_valid {s : Service} {r : Rule} (valid : s.validate r = .ok ()) :
    s.checked r = .ok r := by
  rw [Service.checked, valid]

theorem parse_render (policy : Policy) {r : Rule} (written : r.Written) :
    (Rule.parse policy r.render).toOption = r.echo? := by
  have all : ∀ q ∈ [r], q.Written := by simpa using written
  have texts := blocks_renders all
  rw [List.map_singleton, String.intercalate_singleton, List.map_singleton] at texts
  cases blocks : Text.blocks r.render.toList with
  | nil => simp [blocks] at texts
  | cons block later =>
    rw [blocks, List.map_cons] at texts
    obtain ⟨first, none⟩ := List.cons.inj texts
    obtain rfl : later = [] := by simpa using none
    rw [Rule.parse, blocks]
    exact ofBlock_textLines policy written first

def tieredBonus : Rule where
  name := "Tiered bonus 2"
  priority := 10
  conditions :=
    [⟨"region", .isIn, .list [.text "EU \"west\"\n", .bool true, .int (-3)]⟩,
      ⟨"discount", .lt, .scalar (.float (.ofDecimal true ⟨5, -1⟩))⟩]
  calculation := "sale_amount * 0.05"
  notes := some "checked\nWhen due"

theorem tieredBonus_canonical : tieredBonus.Canonical where
  name := by decide
  fields := by decide
  calculation := by decide
  notes := by
    intro text same
    obtain rfl := Option.some.inj same
    exact ⟨["checked".toList, "When due".toList], by decide, by decide, rfl⟩
  finite := by decide +kernel

/-- Rendering and then reading gives canonical rules back, any number of them at once. -/
theorem canonical_round_trip (rs : List Rule) (canonical : ∀ r ∈ rs, r.Canonical) :
    (∀ policy, Rule.parseAll policy ("\n\n".intercalate (rs.map Rule.render)) = .ok rs) ∧
    ∀ s : Service, (∀ r ∈ rs, s.validate r = .ok ()) →
      s.parseMany ("\n\n".intercalate (rs.map Rule.render)) = .ok rs ∧
      ∀ r, rs = [r] → s.parse ("\n\n".intercalate (rs.map Rule.render)) = .ok r := by
  have texts := blocks_renders fun r mem => (canonical r mem).toWritten
  refine ⟨fun policy => ?_, fun s valid => ⟨?_, ?_⟩⟩
  · refine mapM_blocks (fun r mem block same => ?_) texts
    exact ofBlock_canonical policy (canonical r mem) same
  · refine mapM_blocks (fun r mem block same => ?_) texts
    rw [Service.ofBlock, ofBlock_canonical s.policy (canonical r mem) same]
    exact checked_of_valid (valid r mem)
  · intro r one
    have mem : r ∈ rs := by simp [one]
    have read := parse_render s.policy (canonical r mem).toWritten
    rw [Rule.echo?_of_isFinite (canonical r mem).finite, toOption_eq_some_iff] at read
    rw [one, List.map_singleton, String.intercalate_singleton, Service.parse, read]
    exact checked_of_valid (valid r mem)

theorem canonical_round_trip_tieredBonus :
    Rule.parseAll .strict ("\n\n".intercalate ([tieredBonus].map Rule.render)) = .ok [tieredBonus] ∧
    Service.parseMany {} ("\n\n".intercalate ([tieredBonus].map Rule.render)) = .ok [tieredBonus] ∧
    Service.parse {} ("\n\n".intercalate ([tieredBonus].map Rule.render)) = .ok tieredBonus := by
  have canonical : ∀ r ∈ [tieredBonus], r.Canonical := by simpa using tieredBonus_canonical
  have valid : ∀ r ∈ [tieredBonus], Service.validate {} r = .ok () := by
    intro r mem
    obtain rfl := List.mem_singleton.mp mem
    apply toOption_eq_some_iff.mp
    decide +kernel
  obtain ⟨all, services⟩ := canonical_round_trip [tieredBonus] canonical
  exact ⟨all .strict, (services {} valid).1, (services {} valid).2 tieredBonus rfl⟩

end Commission
