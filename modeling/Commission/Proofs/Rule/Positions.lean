import Commission.Proofs.Rule.Classification
import Commission.Proofs.Text.Runs

/-!
Which line an error of a rule text points to. A line keeps its position in the whole text from the
splitting into blocks up to the error, so the number that an error carries is the position of a line
that is not blank; the error of an unreadable line quotes that line. Main statement:
`positions_absolute`.
-/
namespace Commission

open Text (NumberedLine)

/-- The error carries the number of the line. It quotes an unreadable line as it stands, without the
    blanks around it. -/
inductive ParseError.Blames (line : NumberedLine) : ParseError → Prop where
  | unreadable (expected : List Expected) :
      Blames line (.unreadable line.number (String.ofList line.body) expected)
  | outsideSection (text : String) : Blames line (.outsideSection line.number text)
  | duplicateHeader (name : String) : Blames line (.duplicateHeader line.number name)

def ParseError.Within (block : List NumberedLine) (e : ParseError) : Prop :=
  e.line? = none ∨ ∃ line ∈ block, e.Blames line

/-! ## One line and one block -/

theorem push_blames {policy : Policy} {line : NumberedLine} {content : LineContent} {d : Draft}
    {e : ParseError} (failed : d.push policy line.number content = .error e) : e.Blames line := by
  unfold Draft.push at failed
  split at failed
  · split at failed
    · obtain rfl := Except.error.inj failed
      exact .duplicateHeader _
    · contradiction
  · contradiction
  · contradiction
  · contradiction
  · contradiction
  · split at failed
    · obtain rfl := Except.error.inj failed
      exact .outsideSection _
    · contradiction

theorem step_blames {policy : Policy} {line : NumberedLine} {d : Draft} {e : ParseError}
    (failed : d.step policy line = .error e) : e.Blames line := by
  rcases bind_fails_iff.mp failed with unread | ⟨read, -, misplaced⟩
  · obtain ⟨-, -, expected, -, rfl⟩ :=
      (Line.contentOf_eq_error_iff e).mp (Line.read_eq_error_iff.mp unread)
    exact .unreadable _
  · exact push_blames misplaced

theorem finish_line? {d : Draft} {e : ParseError} (failed : d.finish = .error e) :
    e.line? = none := by
  unfold Draft.finish at failed
  split at failed
  · obtain rfl := Except.error.inj failed
    rfl
  · obtain rfl := Except.error.inj failed
    rfl
  · contradiction

theorem ofBlock_within {policy : Policy} {block : List NumberedLine} {e : ParseError}
    (failed : Rule.ofBlock policy block = .error e) : e.Within block := by
  rcases bind_fails_iff.mp failed with stopped | ⟨d, -, unfinished⟩
  · obtain ⟨line, mem, d, refused⟩ := exists_of_foldlM_error stopped
    exact .inr ⟨line, mem, step_blames refused⟩
  · exact .inl (finish_line? unfinished)

/-! ## Texts -/

/-- A number in the error is the position of a line that is not blank, and the error of an
    unreadable line quotes this line without the blanks around it. -/
def ParseError.Located (cs : List Char) (e : ParseError) : Prop :=
  ∀ n, e.line? = some n → ∃ content, Text.lineAt? cs n = some content ∧
    Text.isBlankLine content = false ∧
    ∀ quoted expected, e = .unreadable n quoted expected →
      quoted = String.ofList (Text.trim content)

section Located
variable {cs : List Char} {block : List NumberedLine} {line : NumberedLine} {e : ParseError}

theorem located_of_silent (silent : e.line? = none) : e.Located cs := by
  intro n numbered
  rw [silent] at numbered
  contradiction

theorem located_of_blames (mem : block ∈ Text.blocks cs) (inside : line ∈ block)
    (blames : e.Blames line) : e.Located cs := by
  obtain ⟨numbered, solid⟩ := Text.numbered_of_mem_blocks mem inside
  have position := Text.lineAt?_of_mem numbered
  intro n same
  cases blames with
  | unreadable expected =>
    obtain rfl := Option.some.inj same
    refine ⟨line.text, position, solid, fun quoted expected' same => ?_⟩
    exact (ParseError.unreadable.inj same).2.1.symm
  | outsideSection text =>
    obtain rfl := Option.some.inj same
    exact ⟨line.text, position, solid, fun _ _ same => by contradiction⟩
  | duplicateHeader name =>
    obtain rfl := Option.some.inj same
    exact ⟨line.text, position, solid, fun _ _ same => by contradiction⟩

theorem located_of_within (mem : block ∈ Text.blocks cs) (within : e.Within block) :
    e.Located cs := by
  rcases within with silent | ⟨line, inside, blames⟩
  · exact located_of_silent silent
  · exact located_of_blames mem inside blames

theorem located_of_multipleRules (mem : block ∈ Text.blocks cs) (inside : line ∈ block) :
    (ParseError.multipleRules line.number).Located cs := by
  obtain ⟨numbered, solid⟩ := Text.numbered_of_mem_blocks mem inside
  intro n same
  obtain rfl := Option.some.inj same
  exact ⟨line.text, Text.lineAt?_of_mem numbered, solid, fun _ _ same => by contradiction⟩

theorem ParseError.Within.ne_multipleRules (within : e.Within block) (n : Nat) :
    e ≠ .multipleRules n := by
  rintro rfl
  rcases within with silent | ⟨line, -, blames⟩
  · contradiction
  · cases blames

end Located

namespace Rule

theorem parseAll_fails (policy : Policy) (text : String) :
    FailsWith (fun e => ∃ block ∈ Text.blocks text.toList, e.Within block)
      (parseAll policy text) := by
  intro e failed
  obtain ⟨before, block, after, split, -, refused⟩ := mapM_eq_error_iff.mp failed
  exact ⟨block, by simp [split], ofBlock_within refused⟩

theorem parse_cases (policy : Policy) (text : String) :
    (∃ first line below rest, Text.blocks text.toList = first :: (line :: below) :: rest ∧
      parse policy text = .error (.multipleRules line.number)) ∨
    FailsWith (fun e => e.line? = none ∨ ∃ block ∈ Text.blocks text.toList, e.Within block)
      (parse policy text) := by
  have filled := (Text.blocks_runs text.toList).filled
  unfold parse
  split
  · refine .inr fun e failed => ?_
    rcases ofBlock_within failed with silent | ⟨line, mem, -⟩
    · exact .inl silent
    · simp at mem
  · next block whole =>
    refine .inr fun e failed => .inr ⟨block, ?_, ofBlock_within failed⟩
    simp [whole]
  · next first second rest whole =>
    cases second with
    | nil => exact absurd rfl (filled [] (by simp [whole]))
    | cons line below => exact .inl ⟨first, line, below, rest, whole, rfl⟩

theorem parse_eq_multipleRules_iff (policy : Policy) (text : String) (n : Nat) :
    parse policy text = .error (.multipleRules n) ↔ ∃ first line below rest,
      Text.blocks text.toList = first :: (line :: below) :: rest ∧ line.number = n := by
  constructor
  · intro several
    rcases parse_cases policy text with ⟨first, line, below, rest, whole, refused⟩ | fails
    · rw [refused] at several
      have same := ParseError.multipleRules.inj (Except.error.inj several)
      exact ⟨first, line, below, rest, whole, same⟩
    · rcases fails _ several with silent | ⟨block, -, within⟩
      · contradiction
      · exact absurd rfl (within.ne_multipleRules n)
  · rintro ⟨first, line, below, rest, whole, rfl⟩
    rw [parse, whole]
    rfl

end Rule

/-- The blocks of a text are its runs of lines that are not blank, each line with its position among
    all lines. An error of either reader that carries a number carries the position of such a line,
    and the error of an unreadable line quotes it. Several rules where one is read are reported at
    the first line of the second block. -/
theorem positions_absolute (policy : Policy) (text : String) :
    Text.Runs ((Text.lines text.toList).mapIdx fun i line => ⟨i + 1, line⟩)
      (Text.blocks text.toList) ∧
    FailsWith (ParseError.Located text.toList) (Rule.parseAll policy text) ∧
    FailsWith (ParseError.Located text.toList) (Rule.parse policy text) ∧
    (∀ n, Rule.parse policy text = .error (.multipleRules n) ↔ ∃ first line below rest,
      Text.blocks text.toList = first :: (line :: below) :: rest ∧ line.number = n) ∧
    ∀ n, Rule.parseAll policy text ≠ .error (.multipleRules n) := by
  refine ⟨?_, ?_, ?_, Rule.parse_eq_multipleRules_iff policy text, ?_⟩
  · rw [← Text.numberedLines_eq]
    exact Text.blocks_runs text.toList
  · intro e failed
    obtain ⟨block, mem, within⟩ := Rule.parseAll_fails policy text e failed
    exact located_of_within mem within
  · intro e failed
    rcases Rule.parse_cases policy text with ⟨first, line, below, rest, whole, refused⟩ | fails
    · rw [refused] at failed
      obtain rfl := Except.error.inj failed
      have second : line :: below ∈ Text.blocks text.toList := by simp [whole]
      exact located_of_multipleRules second (by simp)
    · rcases fails e failed with silent | ⟨block, mem, within⟩
      · exact located_of_silent silent
      · exact located_of_within mem within
  · intro n failed
    obtain ⟨block, -, within⟩ := Rule.parseAll_fails policy text _ failed
    exact within.ne_multipleRules n rfl

/-- Two blank lines above the first block and one between the blocks. -/
example : Rule.parse .lenient "\n \nQuota (1)\nThen\n    1\n\t\nMargin (2)" =
    .error (.multipleRules 7) := by
  decide +kernel

end Commission
