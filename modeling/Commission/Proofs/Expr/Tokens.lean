import Commission.Proofs.Expr.Grammar
import Commission.Proofs.Text.Scanning

/-!
The tokens of a calculation: what the readers of blanks, numbers and names make of a text that
starts with a given token, and which token they have found when they succeed.
-/
namespace Commission.Expr.Grammar

theorem isSpace_iff {c : Char} : isSpace c ↔ c = ' ' ∨ c = '\t' ∨ c = '\r' ∨ c = '\n' := by
  simp [isSpace, or_assoc]

theorem skipSpaces_append {blanks cs : List Char} (blank : Blank blanks) :
    skipSpaces (blanks ++ cs) = skipSpaces cs :=
  List.dropWhile_append_of_pos fun c mem => isSpace_iff.mpr (blank c mem)

theorem skipSpaces_cons {c : Char} (cs : List Char) (solid : isSpace c = false) :
    skipSpaces (c :: cs) = c :: cs := by
  simp [skipSpaces, solid]

theorem skipSpaces_token {blanks : List Char} {c : Char} (cs : List Char) (blank : Blank blanks)
    (solid : isSpace c = false) : skipSpaces (blanks ++ c :: cs) = c :: cs := by
  rw [skipSpaces_append blank, skipSpaces_cons cs solid]

theorem skipSpaces_blank {blanks : List Char} (blank : Blank blanks) : skipSpaces blanks = [] := by
  have : skipSpaces (blanks ++ []) = skipSpaces [] := skipSpaces_append blank
  simpa [skipSpaces] using this

theorem skipSpaces_split (cs : List Char) :
    ∃ blanks, Blank blanks ∧ cs = blanks ++ skipSpaces cs :=
  ⟨cs.takeWhile isSpace, fun _ mem => isSpace_iff.mp (Text.mem_takeWhile mem),
    List.takeWhile_append_dropWhile.symm⟩

theorem skipSpaces_head {c : Char} {cs rest : List Char} (h : skipSpaces cs = c :: rest) :
    isSpace c = false :=
  Text.dropWhile_head cs c (by rw [show cs.dropWhile isSpace = c :: rest from h]; simp)

theorem skipSpaces_idem (cs : List Char) : skipSpaces (skipSpaces cs) = skipSpaces cs := by
  cases h : skipSpaces cs with
  | nil => rfl
  | cons c rest => exact skipSpaces_cons rest (skipSpaces_head h)

def afterOperand : List Char := ['+', '-', '*', '/', ')', ',']

def afterProduct : List Char := ['+', '-', ')', ',']

def afterSum : List Char := [')', ',']

def Follows (allowed rest : List Char) : Prop := ∀ c ∈ (skipSpaces rest).head?, c ∈ allowed

theorem follows_token {allowed blanks : List Char} {c : Char} (cs : List Char)
    (blank : Blank blanks) (solid : isSpace c = false) (mem : c ∈ allowed) :
    Follows allowed (blanks ++ c :: cs) := by
  intro d hd
  rw [skipSpaces_token cs blank solid] at hd
  simp only [List.head?_cons, Option.mem_def, Option.some.injEq] at hd
  exact hd ▸ mem

theorem follows_blank {allowed blanks : List Char} (blank : Blank blanks) :
    Follows allowed blanks := by
  simp [Follows, skipSpaces_blank blank]

theorem follows_mono {small large rest : List Char} (sub : ∀ c ∈ small, c ∈ large)
    (follows : Follows small rest) : Follows large rest :=
  fun c hc => sub c (follows c hc)

theorem head_of_follows {rest : List Char} (follows : Follows afterOperand rest) :
    ∀ c ∈ rest.head?, isSpace c ∨ c ∈ afterOperand := by
  intro c hc
  cases rest with
  | nil => simp at hc
  | cons d rest =>
    obtain rfl : d = c := by simpa using hc
    by_cases space : isSpace d
    · exact .inl space
    · right
      apply follows d
      simp [skipSpaces_cons rest (by simpa using space)]

theorem stops_of_follows {p : Char → Bool} (spaces : ∀ c, isSpace c → p c = false)
    (others : afterOperand.any p = false) {rest : List Char}
    (follows : Follows afterOperand rest) : ∀ c ∈ rest.head?, p c = false := by
  intro c hc
  rcases head_of_follows follows c hc with space | other
  · exact spaces c space
  · simpa using List.any_eq_false.mp others c other

theorem isDigit_of_isSpace {c : Char} (h : isSpace c) : c.isDigit = false := by
  rcases isSpace_iff.mp h with rfl | rfl | rfl | rfl <;> decide

theorem isPart_of_isSpace {c : Char} (h : isSpace c) : Text.Identifier.isPart c = false := by
  rcases isSpace_iff.mp h with rfl | rfl | rfl | rfl <;> decide

theorem digit_stops {rest : List Char} (follows : Follows afterOperand rest) :
    ∀ c ∈ rest.head?, c.isDigit = false :=
  stops_of_follows (fun _ => isDigit_of_isSpace) (by decide) follows

theorem part_stops {rest : List Char} (follows : Follows afterOperand rest) :
    ∀ c ∈ rest.head?, Text.Identifier.isPart c = false :=
  stops_of_follows (fun _ => isPart_of_isSpace) (by decide) follows

theorem parts_end_before {blanks : List Char} {c : Char} (blank : Blank blanks)
    (other : Text.Identifier.isPart c = false) (rest : List Char) :
    ∀ d ∈ (blanks ++ c :: rest).head?, Text.Identifier.isPart d = false := by
  intro d hd
  cases blanks with
  | nil =>
    obtain rfl : c = d := by simpa using hd
    exact other
  | cons b blanks =>
    obtain rfl : b = d := by simpa using hd
    exact isPart_of_isSpace (isSpace_iff.mpr (blank b (by simp)))

theorem point_stops {rest : List Char} (follows : Follows afterOperand rest) :
    ∀ c ∈ rest.head?, (c == '.') = false := by
  refine stops_of_follows (fun c space => ?_) (by decide) follows
  rcases isSpace_iff.mp space with rfl | rfl | rfl | rfl <;> decide

/-! ## Operators -/

def Strength.op? : Strength → Char → Option BinaryOp
  | product => productOp?
  | sum => sumOp?

theorem Strength.op?_eq_some_iff {strength : Strength} {c : Char} {op : BinaryOp} :
    strength.op? c = some op ↔ strength.Symbol c op := by
  constructor
  · intro known
    cases strength <;> simp only [op?, productOp?, sumOp?] at known <;> split at known
    · cases known
      exact .times
    · cases known
      exact .over
    · contradiction
    · cases known
      exact .plus
    · cases known
      exact .minus
    · contradiction
  · intro symbol
    cases symbol <;> rfl

/-! ## Numbers -/

theorem number?_whole {ds rest : List Char} (filled : ds ≠ []) (digits : Digits ds)
    (noDigit : ∀ c ∈ rest.head?, c.isDigit = false)
    (noPoint : ∀ c ∈ rest.head?, (c == '.') = false) :
    number? (ds ++ rest) = some (.ofDigits ds [], rest) := by
  rw [number?, Text.takeWhile_append_stop digits noDigit, Text.dropWhile_append_stop digits noDigit]
  split
  · simp at noPoint
  · simp [filled]

theorem number?_point {ds fs rest : List Char} (filled : ds ≠ [] ∨ fs ≠ []) (digits : Digits ds)
    (fraction : Digits fs) (noDigit : ∀ c ∈ rest.head?, c.isDigit = false) :
    number? (ds ++ '.' :: (fs ++ rest)) = some (.ofDigits ds fs, rest) := by
  have stop : ∀ c ∈ ('.' :: (fs ++ rest)).head?, c.isDigit = false := Text.stop_cons (by decide) _
  rw [number?, Text.takeWhile_append_stop digits stop, Text.dropWhile_append_stop digits stop]
  simp only [Text.takeWhile_append_stop fraction noDigit,
    Text.dropWhile_append_stop fraction noDigit]
  rcases filled with filled | filled <;> simp [filled]

theorem number?_complete {cs rest : List Char} {d : Decimal} (number : Number cs d)
    (follows : Follows afterOperand rest) : number? (cs ++ rest) = some (d, rest) := by
  have noDigit := digit_stops follows
  cases number with
  | whole filled digits => exact number?_whole filled digits noDigit (point_stops follows)
  | point filled digits fraction =>
    simpa using number?_point (.inl filled) digits fraction noDigit
  | fraction filled digits =>
    have none : Digits [] := fun _ mem => by simp at mem
    exact number?_point (.inr filled) none digits noDigit

theorem number?_sound {cs rest : List Char} {d : Decimal} (h : number? cs = some (d, rest)) :
    ∃ text, cs = text ++ rest ∧ Number text d := by
  have digits (xs : List Char) : Digits (xs.takeWhile Char.isDigit) :=
    fun _ mem => Text.mem_takeWhile mem
  have whole := List.takeWhile_append_dropWhile (p := Char.isDigit) (l := cs)
  simp only [number?] at h
  split at h
  · next after point =>
    have fraction := List.takeWhile_append_dropWhile (p := Char.isDigit) (l := after)
    rw [point] at whole
    split at h
    · simp at h
    · next filled =>
      obtain ⟨rfl, rfl⟩ := by simpa using h
      refine ⟨cs.takeWhile Char.isDigit ++ '.' :: after.takeWhile Char.isDigit, ?_, ?_⟩
      · rw [List.append_assoc, List.cons_append, fraction, whole]
      · by_cases none : cs.takeWhile Char.isDigit = []
        · rw [none]
          exact .fraction (by simpa [none] using filled) (digits after)
        · exact .point none (digits cs) (digits after)
  · split at h
    · simp at h
    · next filled =>
      obtain ⟨rfl, rfl⟩ := by simpa using h
      exact ⟨_, whole.symm, .whole (by simpa using filled) (digits cs)⟩

theorem number_head {cs : List Char} {d : Decimal} (number : Number cs d) :
    ∃ c rest, cs = c :: rest ∧ (c.isDigit ∨ c = '.') := by
  cases number with
  | whole filled digits =>
    cases cs with
    | nil => contradiction
    | cons c ds => exact ⟨c, ds, rfl, .inl (digits c (by simp))⟩
  | @point ds fs filled digits fraction =>
    cases ds with
    | nil => contradiction
    | cons c ds => exact ⟨c, ds ++ '.' :: fs, rfl, .inl (digits c (by simp))⟩
  | @fraction fs filled digits => exact ⟨'.', fs, rfl, .inr rfl⟩

theorem solid_of_number {cs : List Char} {d : Decimal} (number : Number cs d) :
    ∃ c ∈ cs, Text.isBlank c = false := by
  obtain ⟨c, rest, rfl, start⟩ := number_head number
  refine ⟨c, by simp, ?_⟩
  rcases start with digit | rfl
  · exact Text.isBlank_of_isAlphanum (by simp [Char.isAlphanum, digit])
  · decide

theorem number?_none {c : Char} (rest : List Char) (noDigit : c.isDigit = false)
    (noPoint : c ≠ '.') : number? (c :: rest) = none := by
  simp [number?, noDigit, noPoint]

/-! ## Names -/

theorem isSpace_of_isStart {c : Char} (start : Text.Identifier.isStart c) : isSpace c = false := by
  cases space : isSpace c with
  | false => rfl
  | true => rcases isSpace_iff.mp space with rfl | rfl | rfl | rfl <;> contradiction

theorem solid_of_name {name : List Char} (named : Text.Identifier.isIdentifier name) :
    ∃ c ∈ name, Text.isBlank c = false := by
  obtain ⟨c, rest, rfl, start⟩ := Text.Identifier.head_of_isIdentifier named
  exact ⟨c, by simp, Text.isBlank_of_isStart start⟩

end Commission.Expr.Grammar
