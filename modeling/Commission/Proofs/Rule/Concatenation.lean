import Commission.Proofs.Rule.Renumbering
import Commission.Proofs.Rule.Rereading
import Commission.Proofs.Text.Concatenation

/-!
Reading two texts with an empty line between them. The rules of the whole are those of the first
text and then those of the second one; the first error ends the reading, and an error of the second
text names a line further down. Main statement: `parseMany_concatenation`.
-/
namespace Commission
open Text (NumberedLine)

def RuleError.shift (lines : Nat) : RuleError → RuleError
  | parse e => parse (e.shift lines)
  | validation e => validation e

/-! ## Lines further down -/

theorem shift_eq_renumber (k : Nat) : ParseError.shift k = ParseError.renumber (· + k) := by
  funext e
  cases e <;> rfl

theorem ofBlock_shift (policy : Policy) (k : Nat) (block : List NumberedLine) :
    Rule.ofBlock policy (block.map (NumberedLine.shift k)) =
      (Rule.ofBlock policy block).mapError (ParseError.shift k) := by
  rw [shift_eq_renumber]
  exact ofBlock_renumber policy (· + k) block

/-! ## Blanks at the ends of lines -/

theorem step_cut (policy : Policy) (d : Draft) (line : NumberedLine) :
    d.step policy line.cut = d.step policy line := by
  simp only [Draft.step, Line.read, NumberedLine.cut, Text.trim, Text.trimEnd_trimEnd]

theorem ofBlock_cut (policy : Policy) (block : List NumberedLine) :
    Rule.ofBlock policy (block.map NumberedLine.cut) = Rule.ofBlock policy block := by
  simp only [Rule.ofBlock, List.foldlM_map, step_cut]

/-! ## Services -/

namespace Service
variable (s : Service)

theorem ofBlock_eq (block : List NumberedLine) :
    s.ofBlock block = (Rule.ofBlock s.policy block).mapError .parse >>= s.checked := by
  rw [ofBlock]
  cases Rule.ofBlock s.policy block <;> rfl

theorem checked_shift (k : Nat) (r : Rule) :
    (s.checked r).mapError (RuleError.shift k) = s.checked r := by
  rw [checked]
  cases s.validate r <;> rfl

theorem service_ofBlock_shift (k : Nat) (block : List NumberedLine) :
    s.ofBlock (block.map (NumberedLine.shift k)) =
      (s.ofBlock block).mapError (RuleError.shift k) := by
  rw [ofBlock_eq, ofBlock_eq, mapError_bind, ofBlock_shift]
  simp only [checked_shift]
  cases Rule.ofBlock s.policy block <;> rfl

theorem mapM_ofBlock_cut (blocks : List (List NumberedLine)) :
    (blocks.map (List.map NumberedLine.cut)).mapM s.ofBlock = blocks.mapM s.ofBlock := by
  rw [List.mapM_map]
  congr 1
  funext block
  rw [Function.comp_apply, ofBlock_eq, ofBlock_eq, ofBlock_cut]

theorem parseMany_append (first second : String) :
    s.parseMany (first ++ "\n\n" ++ second) = (do
      let rules ← s.parseMany first
      let more ← (s.parseMany second).mapError (RuleError.shift (first.toList.count '\n' + 2))
      return rules ++ more) := by
  have whole : (first ++ "\n\n" ++ second).toList =
      first.toList ++ '\n' :: '\n' :: second.toList := by
    simp
  rw [parseMany, whole, ← mapM_ofBlock_cut, Text.blocks_append, mapM_ofBlock_cut, List.mapM_append,
    mapM_mapError (s.service_ofBlock_shift _)]
  rfl

theorem parse_of_block {text : String} {block : List NumberedLine}
    (one : Text.blocks text.toList = [block]) : s.parse text = s.ofBlock block := by
  rw [parse, Rule.parse, one]
  rfl

theorem parseMany_of_block {text : String} {block : List NumberedLine}
    (one : Text.blocks text.toList = [block]) :
    s.parseMany text = (s.parse text).map fun r => [r] := by
  rw [parseMany, one, s.parse_of_block one, List.mapM_cons]
  cases s.ofBlock block <;> rfl

theorem parse_eq_ok_iff_parseMany (text : String) (r : Rule) :
    s.parse text = .ok r ↔ s.parseMany text = .ok [r] := by
  match blocks : Text.blocks text.toList with
  | [] =>
    have none : s.parse text = .error (.parse .missingHeader) := by
      rw [parse, Rule.parse, blocks]
      rfl
    simp [none, parseMany, blocks, pure, Except.pure]
  | [block] =>
    rw [s.parseMany_of_block blocks]
    cases s.parse text <;> simp [Except.map]
  | first :: second :: later =>
    have many : failure? (s.parse text) ≠ none := by
      rw [parse, Rule.parse, blocks]
      simp [failure?]
    constructor
    · intro read
      exact absurd (failure?_eq_none_iff.mpr ⟨r, read⟩) many
    · intro read
      simp only [parseMany, blocks, List.mapM_cons, bind_eq_ok_iff] at read
      obtain ⟨p, -, rest, ⟨q, -, more, -, two⟩, all⟩ := read
      obtain rfl := Except.ok.inj two
      cases all

end Service

/-- Two texts with an empty line between them are read one after the other: the rules follow each
    other, the first error is the answer, and an error of the second text counts its line from the
    start of the whole. The only rule of a text is what is read where one rule is asked for, and a
    text of one block has the same errors either way. -/
theorem parseMany_concatenation (s : Service) :
    (∀ first second : String,
      (∀ e, s.parseMany first = .error e →
        s.parseMany (first ++ "\n\n" ++ second) = .error e) ∧
      (∀ rules more, s.parseMany first = .ok rules → s.parseMany second = .ok more →
        s.parseMany (first ++ "\n\n" ++ second) = .ok (rules ++ more)) ∧
      ∀ rules e, s.parseMany first = .ok rules → s.parseMany second = .error e →
        s.parseMany (first ++ "\n\n" ++ second) =
          .error (e.shift (first.toList.count '\n' + 2))) ∧
    (∀ text r, s.parse text = .ok r ↔ s.parseMany text = .ok [r]) ∧
    (∀ text, (Text.blocks text.toList).length = 1 →
      ∀ e, s.parse text = .error e ↔ s.parseMany text = .error e) ∧
    ∀ text e, s.parseMany text = .error e ↔
      ∃ before bad after, Text.blocks text.toList = before ++ bad :: after ∧
        (∀ block ∈ before, ∃ r, s.ofBlock block = .ok r) ∧ s.ofBlock bad = .error e := by
  refine ⟨fun first second => ?_, s.parse_eq_ok_iff_parseMany, ?_, fun text e => ?_⟩
  · rw [s.parseMany_append first second]
    refine ⟨?_, ?_, ?_⟩
    · intro e failed
      rw [failed]
      rfl
    · intro rules more read read'
      rw [read, read']
      rfl
    · intro rules e read failed
      rw [read, failed]
      rfl
  · intro text one e
    obtain ⟨block, one⟩ := List.length_eq_one_iff.mp one
    rw [s.parseMany_of_block one]
    cases s.parse text <;> simp [Except.map]
  · exact mapM_eq_error_iff

/-- The carriage return at the end stands before a line feed in a longer text. -/
def quotaText : String := "Quota (1)\nWhen\n    quota > 0\nThen\n    1\r"

def unreadableText : String := "Bonus (2)\nWhen\n    quota ? 1\nThen\n    2"

def urgentText : String := "Urgent (2000)\nWhen\n    quota > 0\nThen\n    1"

theorem parseMany_concatenation_unreadable :
    Service.parseMany {} quotaText =
      .ok [⟨"Quota", 1, [⟨"quota", .gt, .scalar (.int 0)⟩], "1", none⟩] ∧
    Service.parseMany {} unreadableText =
      .error (.parse (.unreadable 3 "quota ? 1" [.operator, .sectionMarker])) ∧
    Service.parseMany {} urgentText = .error (.validation (.priorityOutOfRange 2000)) ∧
    Service.parseMany {} (quotaText ++ "\n\n" ++ unreadableText) =
      .error (.parse (.unreadable 9 "quota ? 1" [.operator, .sectionMarker])) ∧
    Service.parseMany {} (quotaText ++ "\n\n" ++ urgentText) =
      .error (.validation (.priorityOutOfRange 2000)) ∧
    Service.parseMany {} (urgentText ++ "\n\n" ++ unreadableText) =
      .error (.validation (.priorityOutOfRange 2000)) := by
  have read : Service.parseMany {} quotaText =
      .ok [⟨"Quota", 1, [⟨"quota", .gt, .scalar (.int 0)⟩], "1", none⟩] := by
    apply toOption_eq_some_iff.mp
    decide +kernel
  have unreadable : Service.parseMany {} unreadableText =
      .error (.parse (.unreadable 3 "quota ? 1" [.operator, .sectionMarker])) := by
    apply failure?_eq_some_iff.mp
    decide +kernel
  have invalid : Service.parseMany {} urgentText =
      .error (.validation (.priorityOutOfRange 2000)) := by
    apply failure?_eq_some_iff.mp
    decide +kernel
  obtain ⟨joined, -⟩ := parseMany_concatenation {}
  exact ⟨read, unreadable, invalid, (joined quotaText unreadableText).2.2 _ _ read unreadable,
    (joined quotaText urgentText).2.2 _ _ read invalid,
    (joined urgentText unreadableText).1 _ invalid⟩

end Commission
