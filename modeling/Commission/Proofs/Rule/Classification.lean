import Commission.Proofs.Rule.Header
import Commission.Proofs.Rule.Layout

/-!
What a line holds, as a relation on its trimmed text, its depth and the section that is open.
Markers, headers and conditions never stand for one another: a marker has letters only, a header
ends in a parenthesis, and no condition does. So each kind can be told from the text alone, and only
where nothing else fits a line is a calculation or a note as it stands. Main statement:
`read_classifies`.
-/
namespace Commission

/-! ## Depth -/

namespace Line

/-- `depth` units of four spaces, behind which no further unit stands. -/
def Units (depth : Nat) (cs : List Char) : Prop :=
  ∃ rest, cs = List.replicate (4 * depth) ' ' ++ rest ∧ ¬ Text.Indented rest

theorem units_depthOf (cs : List Char) : Units (depthOf cs) cs := by
  fun_induction depthOf cs with
  | case1 cs ih =>
    obtain ⟨rest, split, last⟩ := ih
    refine ⟨rest, ?_, last⟩
    rw [Nat.mul_add, Nat.add_comm, ← List.replicate_append_replicate, List.append_assoc, ← split]
    rfl
  | case2 cs other =>
    refine ⟨cs, rfl, ?_⟩
    rintro ⟨rest, rfl⟩
    exact other rest rfl

theorem depthOf_units {depth : Nat} {cs : List Char} (units : Units depth cs) :
    depthOf cs = depth := by
  obtain ⟨rest, rfl, last⟩ := units
  induction depth with
  | zero => exact (depthOf_eq_zero_iff rest).mpr last
  | succ depth ih =>
    rw [Nat.mul_add, Nat.add_comm, ← List.replicate_append_replicate, List.append_assoc]
    exact congrArg (· + 1) ih

theorem depthOf_eq_iff (cs : List Char) (depth : Nat) : depthOf cs = depth ↔ Units depth cs := by
  constructor
  · rintro rfl
    exact units_depthOf cs
  · exact depthOf_units

end Line

/-! ## Kinds of lines -/

namespace Body

inductive Opens : List Char → Section → Prop where
  | conditions : Opens "When".toList .conditions
  | calculation : Opens "Then".toList .calculation
  | notes : Opens "Notes".toList .notes

def IsMarker (body : List Char) : Prop := ∃ s : Section, Opens body s

def IsHeader (body : List Char) (name : String) (priority : Int64) : Prop :=
  ∃ p : Header.Grammar.Parts, p.text = body ∧ p.Make name priority

def IsCondition (body : List Char) (c : Condition) : Prop :=
  ∃ p : Condition.Grammar.Parts, p.text = body ∧ p.Make c

/-- What a line holds. The fields `place` say in which sections a kind of line is looked for. -/
inductive Holds (body : List Char) (inside : Option Section) (depth : Nat) :
    LineContent → Prop where
  | marker {s : Section} (keyword : Opens body s) : Holds body inside depth (.marker s)
  | header {name : String} {priority : Int64} (place : inside = none) (level : depth = 0)
      (shown : IsHeader body name priority) : Holds body inside depth (.header name priority)
  | condition {c : Condition} (place : inside = some .conditions ∨ inside = none)
      (stands : IsCondition body c) : Holds body inside depth (.condition c)
  | calculation (place : inside = some .calculation) (noMarker : ¬ IsMarker body) :
      Holds body inside depth (.calculation (String.ofList body))
  | note (place : inside = some .notes) (noMarker : ¬ IsMarker body) :
      Holds body inside depth (.note (String.ofList body))
  | stray (place : inside = none) (noMarker : ¬ IsMarker body)
      (noHeader : depth = 0 → ¬ ∃ name priority, IsHeader body name priority)
      (noCondition : ¬ ∃ c, IsCondition body c) :
      Holds body inside depth (.calculation (String.ofList body))

variable {body : List Char}

theorem opens_iff (s : Section) : Opens body s ↔ s.keyword.toList = body := by
  constructor
  · rintro ⟨⟩ <;> rfl
  · rintro rfl
    cases s
    · exact .conditions
    · exact .calculation
    · exact .notes

/-! ## The kinds exclude one another -/

theorem isAlpha_of_marker (marker : IsMarker body) : ∀ c ∈ body, c.isAlpha := by
  obtain ⟨s, keyword⟩ := marker
  rw [← (opens_iff s).mp keyword]
  exact isAlpha_keyword s

theorem noMarker_of_header {name : String} {priority : Int64}
    (header : IsHeader body name priority) : ¬ IsMarker body := by
  intro marker
  obtain ⟨p, rfl, -⟩ := header
  have letter := isAlpha_of_marker marker '(' (by simp [Header.Grammar.Parts.text])
  contradiction

theorem noMarker_of_condition {c : Condition} (condition : IsCondition body c) :
    ¬ IsMarker body := by
  intro marker
  obtain ⟨p, rfl, make⟩ := condition
  obtain ⟨d, mem⟩ := List.exists_mem_of_ne_nil _ make.before.2
  have letter := isAlpha_of_marker marker d (by simp [Condition.Grammar.Parts.text, mem])
  rcases (Text.isGap_iff d).mp (make.before.1 d mem) with rfl | rfl
  · contradiction
  · contradiction

theorem last_of_header {name : String} {priority : Int64} (header : IsHeader body name priority) :
    body.getLast? = some ')' := by
  obtain ⟨p, rfl, -⟩ := header
  have text : p.text =
      p.name ++ (p.spaces ++ '(' :: (p.before ++ (p.digits ++ p.after))) ++ [')'] := by
    simp [Header.Grammar.Parts.text]
  rw [text, List.getLast?_concat]

section Last
open Condition.Grammar

theorem last_of_part (front : List Char) {part : List Char} (filled : part ≠ [])
    (free : ')' ∉ part) : (front ++ part).getLast? ≠ some ')' := by
  rw [Text.getLast?_append_filled front filled]
  exact fun last => free (List.mem_of_getLast? last)

theorem free_of_digits {ds : List Char} (digits : ∀ d ∈ ds, d.isDigit) : ')' ∉ ds := by
  intro mem
  have digit := digits ')' mem
  contradiction

theorem last_of_number {cs : List Char} {s : Scalar} (number : Number cs s) :
    cs.getLast? ≠ some ')' := by
  cases number with
  | integer _ numeral _ =>
    cases numeral with
    | zero => exact last_of_part _ (by simp) (by simp)
    | positive _ digits => exact last_of_part _ (by simp) (free_of_digits digits)
  | @float before whole fraction _ _ _ filled digits =>
    have text : before ++ (whole ++ '.' :: fraction) = before ++ (whole ++ ['.']) ++ fraction := by
      simp
    rw [text]
    exact last_of_part _ filled (free_of_digits digits)

theorem last_of_item {cs : List Char} {s : Scalar} (item : Item cs s) :
    cs.getLast? ≠ some ')' := by
  cases item with
  | @quoted cs _ _ => exact last_of_part ('"' :: cs) (by simp) (by simp)
  | number number => exact last_of_number number
  | word word =>
    intro last
    have part := Text.Identifier.isPart_of_mem (isIdentifier_of_word word) ')'
      (List.mem_of_getLast? last)
    contradiction

theorem last_of_operand {cs : List Char} {v : Value} (operand : Condition.Grammar.Operand cs v) :
    cs.getLast? ≠ some ')' := by
  cases operand with
  | scalar item => exact last_of_item item
  | @list before inner after items _ _ _ =>
    have text : '[' :: (before ++ (inner ++ (after ++ [']']))) =
        '[' :: (before ++ (inner ++ after)) ++ [']'] := by simp
    rw [text]
    exact last_of_part _ (by simp) (by simp)

theorem filled_of_operand {cs : List Char} {v : Value}
    (operand : Condition.Grammar.Operand cs v) : cs ≠ [] := by
  cases operand with
  | scalar item =>
    obtain ⟨c, tail, rfl, -⟩ := item_head item
    exact List.cons_ne_nil c tail
  | list _ _ _ => exact List.cons_ne_nil _ _

theorem last_of_condition {c : Condition} (condition : IsCondition body c) :
    body.getLast? ≠ some ')' := by
  obtain ⟨p, rfl, make⟩ := condition
  have text : p.text =
      p.field ++ (p.before ++ (p.operator.symbol.toList ++ p.after)) ++ p.operand := by
    simp [Parts.text_eq]
  rw [text, Text.getLast?_append_filled _ (filled_of_operand make.operand)]
  exact last_of_operand make.operand

end Last

theorem noHeader_of_condition {c : Condition} (condition : IsCondition body c) :
    ¬ ∃ name priority, IsHeader body name priority := by
  rintro ⟨name, priority, header⟩
  exact last_of_condition condition (last_of_header header)

end Body

/-! ## Reading -/

namespace Line
open Body

variable {body : List Char} {inside : Option Section} {number depth : Nat}

theorem marker?_eq_some_iff (s : Section) : Reading.marker? body = some s ↔ Opens body s := by
  rw [opens_iff]
  constructor
  · intro read
    simpa using List.find?_some read
  · rintro rfl
    cases s <;> decide

theorem marker?_eq_none (other : ¬ IsMarker body) : Reading.marker? body = none :=
  (marker?_eq_none_iff body).mpr fun s same => other ⟨s, (opens_iff s).mpr same⟩

theorem noMarker_of_none (none : Reading.marker? body = none) : ¬ IsMarker body := by
  rintro ⟨s, keyword⟩
  exact (marker?_eq_none_iff body).mp none s ((opens_iff s).mp keyword)

section Trimmed
variable (trimmed : Text.trim body = body)
include trimmed

theorem header?_eq_none_iff :
    Reading.header? body = none ↔ ¬ ∃ name priority, IsHeader body name priority := by
  simp only [IsHeader, ← Header.Grammar.header?_iff trimmed, Option.eq_none_iff_forall_ne_some,
    Prod.forall, not_exists]

theorem condition_fails_iff :
    (∃ expected, Reading.condition body = .error expected) ↔ ¬ ∃ c, IsCondition body c := by
  simp only [IsCondition, ← Condition.Grammar.condition_iff trimmed]
  cases Reading.condition body with
  | ok c => simp
  | error expected => simp

theorem contentOf_of_holds {content : LineContent} (holds : Holds body inside depth content) :
    contentOf number depth body inside = .ok content := by
  cases holds with
  | marker keyword => rw [contentOf, (marker?_eq_some_iff _).mpr keyword]
  | @header name priority place level shown =>
    have read := (Header.Grammar.header?_iff trimmed name priority).mpr shown
    simp [contentOf, marker?_eq_none (noMarker_of_header shown), place, level, read]
  | @condition c place stands =>
    have read := (Condition.Grammar.condition_iff trimmed c).mpr stands
    have noHeader := (header?_eq_none_iff trimmed).mpr (noHeader_of_condition stands)
    rcases place with rfl | rfl
    · simp [contentOf, marker?_eq_none (noMarker_of_condition stands), read]
    · simp [contentOf, marker?_eq_none (noMarker_of_condition stands), read, noHeader]
  | calculation place noMarker => simp [contentOf, marker?_eq_none noMarker, place]
  | note place noMarker => simp [contentOf, marker?_eq_none noMarker, place]
  | stray place noMarker noHeader noCondition =>
    obtain ⟨expected, failed⟩ := (condition_fails_iff trimmed).mpr noCondition
    have none : (if depth = 0 ∧ inside = none then Reading.header? body else none) = none := by
      split
      · next outside => exact (header?_eq_none_iff trimmed).mpr (noHeader outside.1)
      · rfl
    rw [contentOf, marker?_eq_none noMarker, none, place, failed]

theorem holds_of_contentOf {content : LineContent}
    (read : contentOf number depth body inside = .ok content) :
    Holds body inside depth content := by
  unfold contentOf at read
  split at read
  · next s opened =>
    obtain rfl := Except.ok.inj read
    exact .marker ((marker?_eq_some_iff s).mp opened)
  next noMarker =>
  have noMarker := noMarker_of_none noMarker
  split at read
  · next name priority shown =>
    obtain rfl := Except.ok.inj read
    split at shown
    · next outside =>
      exact .header outside.2 outside.1 ((Header.Grammar.header?_iff trimmed _ _).mp shown)
    · contradiction
  next noHeader =>
  dsimp only at read
  split at read
  · split at read
    · next c stands =>
      obtain rfl := Except.ok.inj read
      exact .condition (.inl rfl) ((Condition.Grammar.condition_iff trimmed c).mp stands)
    · contradiction
  · obtain rfl := Except.ok.inj read
    exact .calculation rfl noMarker
  · obtain rfl := Except.ok.inj read
    exact .note rfl noMarker
  · split at read
    · next c stands =>
      obtain rfl := Except.ok.inj read
      exact .condition (.inr rfl) ((Condition.Grammar.condition_iff trimmed c).mp stands)
    · next expected failed =>
      obtain rfl := Except.ok.inj read
      refine .stray rfl noMarker ?_ ((condition_fails_iff trimmed).mp ⟨expected, failed⟩)
      intro level
      rw [if_pos ⟨level, rfl⟩] at noHeader
      exact (header?_eq_none_iff trimmed).mp noHeader

theorem contentOf_eq_ok_iff (content : LineContent) :
    contentOf number depth body inside = .ok content ↔ Holds body inside depth content :=
  ⟨holds_of_contentOf trimmed, contentOf_of_holds trimmed⟩

end Trimmed

theorem contentOf_eq_error_iff (e : ParseError) :
    contentOf number depth body inside = .error e ↔
      inside = some .conditions ∧ ¬ IsMarker body ∧ ∃ expected,
        Reading.condition body = .error expected ∧
        e = .unreadable number (String.ofList body) (expected ++ [.sectionMarker]) := by
  constructor
  · intro read
    unfold contentOf at read
    split at read
    · contradiction
    next noMarker =>
    split at read
    · contradiction
    dsimp only at read
    split at read
    · split at read
      · contradiction
      · next expected failed =>
        exact ⟨rfl, noMarker_of_none noMarker, expected, failed, (Except.error.inj read).symm⟩
    · contradiction
    · contradiction
    · split at read <;> contradiction
  · rintro ⟨rfl, noMarker, expected, failed, rfl⟩
    simp [contentOf, marker?_eq_none noMarker, failed]

theorem read_eq_error_iff {text : List Char} {e : ParseError} :
    Line.read number text inside = .error e ↔
      contentOf number (depthOf (Text.trimEnd text)) (Text.trim text) inside = .error e := by
  rw [Line.read]
  cases contentOf number (depthOf (Text.trimEnd text)) (Text.trim text) inside with
  | ok content => simp [Except.map]
  | error e' => simp [Except.map]

/-- A line is read as what it holds, at its depth. Only among the conditions it may hold nothing,
    and then the error carries its number and its trimmed text. -/
theorem read_classifies (number : Nat) (text : List Char) (inside : Option Section) :
    (∀ depth content, Line.read number text inside = .ok ⟨depth, content⟩ ↔
      Units depth (Text.trimEnd text) ∧ Holds (Text.trim text) inside depth content) ∧
    ((∃ e, Line.read number text inside = .error e) ↔
      inside = some .conditions ∧ ¬ IsMarker (Text.trim text) ∧
        ¬ ∃ c, IsCondition (Text.trim text) c) ∧
    ∀ e, Line.read number text inside = .error e → ∃ expected ≠ [],
      e = .unreadable number (String.ofList (Text.trim text)) (expected ++ [.sectionMarker]) := by
  have trimmed := Text.trim_trim text
  simp only [read_eq_error_iff, contentOf_eq_error_iff]
  refine ⟨?_, ?_, ?_⟩
  · intro depth content
    rw [Line.read, map_eq_ok_iff, ← depthOf_eq_iff]
    constructor
    · rintro ⟨read, holds, same⟩
      obtain ⟨rfl, rfl⟩ := Line.mk.inj same
      exact ⟨rfl, (contentOf_eq_ok_iff trimmed _).mp holds⟩
    · rintro ⟨rfl, holds⟩
      exact ⟨content, (contentOf_eq_ok_iff trimmed content).mpr holds, rfl⟩
  · rw [← condition_fails_iff trimmed]
    constructor
    · rintro ⟨e, place, noMarker, expected, failed, -⟩
      exact ⟨place, noMarker, expected, failed⟩
    · rintro ⟨place, noMarker, expected, failed⟩
      exact ⟨_, place, noMarker, expected, failed, rfl⟩
  · rintro e ⟨-, -, expected, failed, same⟩
    exact ⟨expected, Condition.Grammar.condition_error_ne_nil failed, same⟩

/-- A line that looks like a header is one only without indentation. -/
example : Line.read 1 "Tiered bonus (-7)".toList none = .ok ⟨0, .header "Tiered bonus" (-7)⟩ ∧
    Line.read 1 "    Tiered bonus (-7)".toList none =
      .ok ⟨1, .calculation "Tiered bonus (-7)"⟩ := by
  decide +kernel

end Line

end Commission
