import Commission.Proofs.Condition.Exactness

/-!
The header of a rule: a name, at least one space, and a priority in parentheses. A trimmed text is
read as a header exactly if it is in this grammar. The name of a rule is read back from the header
that shows it, which is neither indented nor a marker. Main statements: `header?_iff` and
`header?_headerText`.
-/
namespace Commission

/-! ## Names -/

theorem RuleName.parts {name : List Char} (named : RuleName name) :
    ∀ c ∈ name, Reading.isNamePart c := by
  intro c mem
  have form := named.form
  cases name with
  | nil => simp at mem
  | cons d ds =>
    simp only [Rule.isName, Bool.and_eq_true, List.all_eq_true] at form
    rcases List.mem_cons.mp mem with rfl | mem
    · exact isNamePart_of_isAlpha form.1
    · exact form.2 c mem

theorem RuleName.head {name : List Char} (named : RuleName name) :
    ∃ c cs, name = c :: cs ∧ c.isAlpha := by
  have form := named.form
  cases name with
  | nil => exact absurd form (by decide)
  | cons c cs =>
    simp only [Rule.isName, Bool.and_eq_true] at form
    exact ⟨c, cs, rfl, form.1⟩

theorem RuleName.last {name : List Char} (named : RuleName name) :
    ∀ c ∈ name.getLast?, Text.isBlank c = false := by
  intro c mem
  refine isBlank_of_isNamePart (named.parts c (List.mem_of_mem_getLast? mem)) ?_
  rintro rfl
  exact named.closed mem

/-! ## The grammar -/

namespace Header.Grammar

open Reading
open Condition.Grammar (Gaps Sign sign_split whole?_sound int64?_sound signed_head dropText?_sound
  skipGaps_split skipGaps_append skipGaps_gaps nil_of_trimmed)

/-- `'0'`, or `[+-] [1-9] [0-9]*` for an integer of 64 bits. -/
inductive Priority : List Char → Int64 → Prop where
  | zero : Priority ['0'] 0
  | other {before ds : List Char} {negative : Bool} {c : Char} {n : Int64}
      (sign : Sign before negative) (lead : c ≠ '0') (digits : ∀ d ∈ c :: ds, d.isDigit)
      (value : n.toInt = Binary64.signed negative (Nat.ofDigitChars 10 (c :: ds) 0)) :
      Priority (before ++ c :: ds) n

structure Parts where
  name : List Char
  spaces : List Char
  before : List Char
  digits : List Char
  after : List Char

def Parts.text (p : Parts) : List Char :=
  p.name ++ (p.spaces ++ '(' :: (p.before ++ (p.digits ++ (p.after ++ [')']))))

structure Parts.Make (p : Parts) (name : String) (priority : Int64) : Prop where
  named : RuleName p.name
  spaces : (∀ c ∈ p.spaces, c = ' ') ∧ p.spaces ≠ []
  gaps : Gaps p.before ∧ Gaps p.after
  priority : Priority p.digits priority
  name : name = String.ofList p.name

/-! ## Priorities -/

theorem priority?_sound {cs rest : List Char} {n : Int64} (read : priority? cs = some (n, rest)) :
    ∃ digits, cs = digits ++ rest ∧ Priority digits n := by
  unfold priority? at read
  split at read
  · next tail =>
    obtain ⟨rfl, rfl⟩ := by simpa using read
    exact ⟨['0'], rfl, .zero⟩
  · obtain ⟨before, signed, split⟩ := sign_split cs
    generalize sign cs = taken at read signed split
    obtain ⟨negative, tail⟩ := taken
    obtain ⟨⟨whole, rest'⟩, run, found⟩ := Option.bind_eq_some_iff.mp read
    obtain ⟨between, numeral⟩ := whole?_sound run
    dsimp only at found between split
    split at found
    · contradiction
    · next several =>
      obtain ⟨m, fits, same⟩ := Option.bind_eq_some_iff.mp found
      obtain ⟨rfl, rfl⟩ := by simpa using same
      have value := int64?_sound fits
      cases numeral with
      | zero => contradiction
      | @positive c ds lead digits =>
        exact ⟨before ++ c :: ds, by simp [split, between], .other signed lead digits value⟩

theorem priority?_complete {digits rest : List Char} {n : Int64} (priority : Priority digits n)
    (stop : ∀ c ∈ rest.head?, c.isDigit = false) : priority? (digits ++ rest) = some (n, rest) := by
  cases priority with
  | zero => rfl
  | @other before ds negative c n signed lead all value =>
    have numeral : Numeral (c :: ds) := .positive lead all
    have several : c :: ds ≠ ['0'] := fun same => lead (List.cons.inj same).1
    rw [priority?]
    · rw [List.append_assoc, sign_append signed numeral]
      simp only [whole?_append numeral stop, Option.bind_eq_bind, Option.bind_some, several,
        if_false, ← value, int64?_toInt]
      rfl
    · -- The first character is the sign or the lead.
      intro tail same
      cases signed with
      | none => exact lead (by simpa using congrArg List.head? same)
      | plus => simp at same
      | minus => simp at same

theorem priority_solid {digits : List Char} {n : Int64} (priority : Priority digits n)
    (rest : List Char) : ∀ c ∈ (digits ++ rest).head?, Text.isGap c = false := by
  cases priority with
  | zero => exact Text.stop_cons (by decide) _
  | other signed lead all value =>
    obtain ⟨c, tail, text, bare⟩ := signed_head signed (.positive lead all) rest
    rw [List.append_assoc, text]
    exact Text.stop_cons (isGap_of_bare bare) _

theorem digits_stop {gaps : List Char} (gap : Gaps gaps) (rest : List Char) :
    ∀ c ∈ (gaps ++ ')' :: rest).head?, c.isDigit = false := by
  cases gaps with
  | nil => exact Text.stop_cons (by decide) _
  | cons c gaps =>
    rcases (Text.isGap_iff c).mp (gap c (by simp)) with rfl | rfl
    · exact Text.stop_cons (by decide) _
    · exact Text.stop_cons (by decide) _

theorem priority_integerText (n : Int64) : Priority (integerText n.toInt) n := by
  by_cases zero : n.toInt = 0
  · obtain rfl : n = 0 := Int64.toInt_inj.mp zero
    exact .zero
  · obtain ⟨c, ds, digits, lead⟩ := toDigits_lead (show 0 < n.toInt.natAbs by omega)
    have all : ∀ d ∈ c :: ds, d.isDigit := by
      rw [← digits]
      exact fun d mem => isDigit_of_mem_toDigits mem
    rw [integerText, digits]
    refine .other (sign_of_signText _) lead all ?_
    rw [← digits, Nat.ofDigitChars_ten_toDigits, signed_natAbs]

/-! ## Names with the spaces behind them -/

theorem isNamePart_of_space {c : Char} (space : c = ' ') : isNamePart c := by
  subst space
  decide

theorem ruleName?_append {name spaces rest : List Char} (named : RuleName name)
    (space : ∀ c ∈ spaces, c = ' ') (stop : ∀ c ∈ rest.head?, isNamePart c = false) :
    ruleName? (name ++ (spaces ++ rest)) = some (name ++ spaces, rest) := by
  obtain ⟨c, cs, rfl, letter⟩ := named.head
  have parts : ∀ d ∈ cs ++ spaces, isNamePart d := by
    intro d mem
    rcases List.mem_append.mp mem with mem | mem
    · exact named.parts d (by simp [mem])
    · exact isNamePart_of_space (space d mem)
  rw [List.cons_append, ruleName?, if_pos letter, ← List.append_assoc,
    Text.takeWhile_append_stop parts stop, Text.dropWhile_append_stop parts stop, List.cons_append]

theorem ruleName?_split {cs text rest : List Char} (read : ruleName? cs = some (text, rest)) :
    cs = text ++ rest := by
  cases cs with
  | nil => contradiction
  | cons c cs =>
    simp only [ruleName?] at read
    split at read
    · obtain ⟨rfl, rfl⟩ := by simpa using read
      simp
    · contradiction

theorem ruleName?_sound {cs text rest : List Char} (read : ruleName? cs = some (text, rest))
    (spaced : text.getLast? = some ' ') :
    ∃ spaces, cs = Text.trimEnd text ++ (spaces ++ rest) ∧ RuleName (Text.trimEnd text) ∧
      (∀ c ∈ spaces, c = ' ') ∧ spaces ≠ [] := by
  obtain ⟨c, tail, rfl, letter, parts⟩ := ruleName?_parts read
  have named := ruleName_trimEnd letter parts
  obtain ⟨spaces, split, blank⟩ := Text.trimEnd_split (c :: tail)
  refine ⟨spaces, ?_, named, ?_, ?_⟩
  · rw [← List.append_assoc, ← split]
    exact ruleName?_split read
  · intro d mem
    apply Decidable.byContradiction
    intro other
    have part : isNamePart d := by
      have inside : d ∈ c :: tail := by
        rw [split]
        exact List.mem_append_right _ mem
      rcases List.mem_cons.mp inside with rfl | inside
      · exact isNamePart_of_isAlpha letter
      · exact parts d inside
    have solid := isBlank_of_isNamePart part other
    rw [blank d mem] at solid
    contradiction
  · rintro rfl
    rw [List.append_nil] at split
    rw [split] at spaced
    exact named.closed spaced

/-! ## Headers -/

theorem guard_of {p : Prop} [Decidable p] (holds : p) : (guard p : Option Unit) = some () :=
  if_pos holds

theorem header?_sound {cs : List Char} {name : String} {priority : Int64}
    (read : header? cs = some (name, priority)) :
    ∃ p gaps, cs = Parts.text p ++ gaps ∧ p.Make name priority ∧ Gaps gaps := by
  obtain ⟨⟨text, rest⟩, start, read⟩ := Option.bind_eq_some_iff.mp read
  obtain ⟨_, spaced, read⟩ := Option.bind_eq_some_iff.mp read
  obtain ⟨inside, opening, read⟩ := Option.bind_eq_some_iff.mp read
  obtain ⟨⟨n, behind⟩, number, read⟩ := Option.bind_eq_some_iff.mp read
  obtain ⟨last, closing, read⟩ := Option.bind_eq_some_iff.mp read
  obtain ⟨_, spent, same⟩ := Option.bind_eq_some_iff.mp read
  obtain ⟨rfl, rfl⟩ := by simpa using same
  obtain ⟨spaces, text, named, space, filled⟩ :=
    ruleName?_sound start ((Option.guard_eq_some' _).mp spaced)
  obtain rfl := dropText?_sound opening
  obtain ⟨before, gap, front⟩ := skipGaps_split inside
  obtain ⟨digits, digits', shown⟩ := priority?_sound number
  obtain ⟨after, gap', middle⟩ := skipGaps_split behind
  have closed := dropText?_sound closing
  obtain ⟨gaps, gap'', back⟩ := skipGaps_split last
  rw [List.isEmpty_iff.mp ((Option.guard_eq_some' _).mp spent), List.append_nil] at back
  refine ⟨⟨Text.trimEnd _, spaces, before, digits, after⟩, gaps, ?_,
    ⟨named, ⟨space, filled⟩, ⟨gap, gap'⟩, shown, rfl⟩, gap''⟩
  rw [text, front, digits', middle, closed, ← back]
  simp [Parts.text]

theorem header?_complete {p : Parts} {name : String} {priority : Int64}
    (make : p.Make name priority) {gaps : List Char} (gap : Gaps gaps) :
    header? (p.text ++ gaps) = some (name, priority) := by
  have text : p.text ++ gaps = p.name ++ (p.spaces ++
      '(' :: (p.before ++ (p.digits ++ (p.after ++ ')' :: gaps)))) := by simp [Parts.text]
  have named := ruleName?_append make.named make.spaces.1
    (Text.stop_cons (x := '(') (by decide) (p.before ++ (p.digits ++ (p.after ++ ')' :: gaps))))
  have spaced : (p.name ++ p.spaces).getLast? = some ' ' := by
    rw [Text.getLast?_append_filled _ make.spaces.2, List.getLast?_eq_some_getLast make.spaces.2,
      make.spaces.1 _ (List.getLast_mem make.spaces.2)]
  have front := skipGaps_append make.gaps.1
    (priority_solid make.priority (p.after ++ ')' :: gaps))
  have number := priority?_complete make.priority (digits_stop make.gaps.2 gaps)
  have back := skipGaps_append make.gaps.2 (Text.stop_cons (x := ')') (by decide) gaps)
  have spent := skipGaps_gaps gap
  have trimmed : Text.trimEnd (p.name ++ p.spaces) = p.name := by
    rw [Text.trimEnd_append_blank _ fun c mem => by rw [make.spaces.1 c mem]; decide,
      Text.trimEnd_of_last make.named.last]
  rw [text, header?, named]
  simp only [Option.bind_eq_bind, Option.bind_some, spaced, guard_of, dropText?, if_true, front,
    number, back, spent, List.isEmpty_nil, trimmed, make.name]
  rfl

theorem header?_iff {body : List Char} (trimmed : Text.trim body = body) (name : String)
    (priority : Int64) :
    header? body = some (name, priority) ↔ ∃ p : Parts, p.text = body ∧ p.Make name priority := by
  constructor
  · intro read
    obtain ⟨p, gaps, rfl, make, gap⟩ := header?_sound read
    obtain rfl := nil_of_trimmed trimmed gap
    exact ⟨p, (List.append_nil _).symm, make⟩
  · rintro ⟨p, rfl, make⟩
    have read := header?_complete make (by simp [Gaps] : Gaps [])
    rwa [List.append_nil] at read

end Header.Grammar

/-! ## The header that a rule shows -/

open Header.Grammar in
theorem header?_headerText {name : String} (named : RuleName name.toList) (priority : Int64) :
    Reading.header? (Rule.headerText name priority) = some (name, priority) := by
  have nothing : Condition.Grammar.Gaps [] := by simp [Condition.Grammar.Gaps]
  have make : Parts.Make ⟨name.toList, [' '], [], integerText priority.toInt, []⟩ name priority :=
    ⟨named, by simp, ⟨nothing, nothing⟩, priority_integerText priority, by simp⟩
  have read := header?_complete make nothing
  simpa [Parts.text, Rule.headerText] using read

/-- The header could stand in a section of its own, but it is not indented. -/
theorem bodyLine_header {name : String} (named : RuleName name.toList) (priority : Int64) :
    BodyLine (Rule.headerText name priority) := by
  obtain ⟨c, cs, head, letter⟩ := named.head
  refine ⟨by simp [Rule.headerText], (Text.trim_eq_self_iff _).mpr ⟨?_, ?_⟩, ?_, ?_⟩
  · intro d mem
    obtain rfl : c = d := by simpa [Rule.headerText, head] using mem
    exact Text.isBlank_of_isAlphanum (by simp [Char.isAlphanum, letter])
  · rw [Rule.headerText, List.getLast?_concat]
    simp [Text.isBlank]
  · intro mem
    simp only [Rule.headerText, List.mem_append] at mem
    rcases mem with ((mem | mem) | mem) | mem
    · have part := named.parts '\n' mem
      contradiction
    · simp at mem
    · have bare := bare_integerText _ '\n' mem
      contradiction
    · simp at mem
  · intro s same
    have parenthesis := isAlpha_keyword s '(' (by rw [same]; simp [Rule.headerText])
    contradiction

theorem depthOf_header {name : String} (named : RuleName name.toList) (priority : Int64) :
    Line.depthOf (Rule.headerText name priority) = 0 := by
  obtain ⟨c, cs, head, letter⟩ := named.head
  rw [Rule.headerText, head, Line.depthOf]
  intro tail same
  obtain rfl : c = ' ' := by simpa using congrArg List.head? same
  contradiction

end Commission
