import Commission.Condition.Reading
import Commission.Proofs.Value.Numbers

/-!
Reading back the text of a value. `echo?` is what comes back: the value itself, except that numbers
beyond the finite ones turn into words or are not readable at all.
-/
namespace Commission

def Scalar.echo? : Scalar → Option Scalar
  | .float (.infinite true) => none
  | .float (.infinite false) => some (.text "inf")
  | .float .nan => some (.text "NaN")
  | s => some s

def Value.echo? : Value → Option Value
  | .scalar s => s.echo?.map .scalar
  | .list items => (items.mapM Scalar.echo?).map .list

/-! ## The characters of a text -/

def isBare (c : Char) : Bool := !Text.isBlank c && c != '[' && c != ']'

theorem isBare_iff (c : Char) : isBare c ↔ Text.isBlank c = false ∧ c ≠ '[' ∧ c ≠ ']' := by
  simp [isBare, and_assoc]

theorem isBlank_of_bare {c : Char} (bare : isBare c) : Text.isBlank c = false :=
  ((isBare_iff c).mp bare).1

theorem isGap_of_bare {c : Char} (bare : isBare c) : Text.isGap c = false := by
  cases gap : Text.isGap c with
  | false => rfl
  | true =>
    have blank := Text.isBlank_of_isGap gap
    rw [isBlank_of_bare bare] at blank
    contradiction

theorem bare_of_isDigit {c : Char} (digit : c.isDigit) : isBare c := by
  refine (isBare_iff c).mpr
    ⟨Text.isBlank_of_isAlphanum (by simp [Char.isAlphanum, digit]), ?_, ?_⟩
  · rintro rfl
    contradiction
  · rintro rfl
    contradiction

theorem bare_signText (negative : Bool) : ∀ c ∈ Binary64.signText negative, isBare c := by
  cases negative with
  | true => exact List.all_eq_true.mp (by decide)
  | false => simp [Binary64.signText]

theorem bare_numeral {ds : List Char} (numeral : Numeral ds) : ∀ c ∈ ds, isBare c :=
  fun c mem => bare_of_isDigit (numeral_digits numeral c mem)

theorem bare_integerText (n : Int) : ∀ c ∈ integerText n, isBare c := by
  intro c mem
  rcases List.mem_append.mp mem with mem | mem
  · exact bare_signText _ c mem
  · exact bare_numeral (numeral_toDigits _) c mem

theorem bare_ruleText (x : Binary64) : ∀ c ∈ x.ruleText, isBare c := by
  cases x with
  | finite negative m =>
    obtain ⟨whole, fraction, text, numeral, -, digits, -⟩ := Binary64.ruleText_parts negative m
    rw [text]
    intro c mem
    rcases List.mem_append.mp mem with mem | mem
    · exact bare_signText negative c mem
    rcases List.mem_append.mp mem with mem | mem
    · exact bare_numeral numeral c mem
    rcases List.mem_cons.mp mem with rfl | mem
    · decide
    · exact bare_of_isDigit (digits c mem)
  | infinite negative => cases negative <;> exact List.all_eq_true.mp (by decide)
  | nan => exact List.all_eq_true.mp (by decide)

namespace Scalar

theorem bare_of_ruleText {s : Scalar} (unquoted : s.kind ≠ .string) :
    ∀ c ∈ s.ruleText, isBare c := by
  cases s with
  | int n => exact bare_integerText n.toInt
  | float x => exact bare_ruleText x
  | bool b => cases b <;> exact List.all_eq_true.mp (by decide)
  | text s => exact absurd rfl unquoted

theorem ruleText_ne_nil (s : Scalar) : s.ruleText ≠ [] := by
  cases s with
  | int n => simp [ruleText, integerText, Nat.toDigits_ne_nil]
  | float x =>
    cases x with
    | finite negative m =>
      obtain ⟨whole, fraction, text, -⟩ := Binary64.ruleText_parts negative m
      simp [ruleText, text]
    | infinite negative => cases negative <;> decide
    | nan => decide
  | bool b => cases b <;> decide
  | text s => simp [ruleText]

theorem bare_ends (s : Scalar) :
    (∀ c ∈ s.ruleText.head?, isBare c) ∧ ∀ c ∈ s.ruleText.getLast?, isBare c := by
  by_cases quoted : s.kind = .string
  · cases s with
    | text s =>
      have quote : isBare '"' := by decide
      rw [ruleText, List.getLast?_concat]
      simpa using quote
    | _ => contradiction
  · have bare := bare_of_ruleText quoted
    exact ⟨fun c mem => bare c (List.mem_of_mem_head? mem),
      fun c mem => bare c (List.mem_of_mem_getLast? mem)⟩

theorem ruleText_head (s : Scalar) : ∃ c cs, s.ruleText = c :: cs ∧ isBare c := by
  cases text : s.ruleText with
  | nil => exact absurd text s.ruleText_ne_nil
  | cons c cs => exact ⟨c, cs, rfl, s.bare_ends.1 c (by simp [text])⟩

theorem noFeed_escape (c : Char) : '\n' ∉ Text.Quoted.escape c := by
  unfold Text.Quoted.escape
  split
  case h_5 noFeed _ => simpa using Ne.symm noFeed
  all_goals decide

theorem noFeed_ruleText (s : Scalar) : '\n' ∉ s.ruleText := by
  by_cases quoted : s.kind = .string
  · cases s with
    | text s => simp [ruleText, Text.Quoted.encode, noFeed_escape]
    | _ => contradiction
  · intro mem
    have bare := bare_of_ruleText quoted '\n' mem
    contradiction

end Scalar

namespace Reading

/-! ## Scalars -/

theorem quoted?_none {c : Char} (other : c ≠ '"') (rest : List Char) :
    quoted? (c :: rest) = none := by
  rw [quoted?]
  intro tail same
  exact other (List.cons.inj same).1

theorem scalar?_quoted (s : String) (rest : List Char) :
    scalar? ((Scalar.text s).ruleText ++ rest) = some (.text s, rest) := by
  have content := Text.Quoted.read?_encode s.toList rest
  simp [scalar?, Scalar.ruleText, quoted?, content]

theorem scalar?_number {cs rest : List Char} {s : Scalar}
    (number : number? cs = some (s, rest)) : scalar? cs = some (s, rest) := by
  cases cs with
  | nil => contradiction
  | cons c cs =>
    have unquoted : c ≠ '"' := by
      rintro rfl
      rw [number?_none (by decide) (by decide)] at number
      contradiction
    simp [scalar?, quoted?_none unquoted, number]

theorem scalar?_word (word : List Char) {rest : List Char}
    (named : Text.Identifier.isIdentifier word)
    (stop : ∀ c ∈ rest.head?, Text.Identifier.isPart c = false) :
    scalar? (word ++ rest) = some (ofWord word, rest) := by
  have read := Text.Identifier.read?_append named stop
  obtain ⟨c, cs, rfl, start⟩ := Text.Identifier.head_of_isIdentifier named
  have noQuote := Text.Identifier.ne_of_isStart (d := '"') start (by decide)
  have noMinus := Text.Identifier.ne_of_isStart (d := '-') start (by decide)
  have noPlus := Text.Identifier.ne_of_isStart (d := '+') start (by decide)
  have noDigit := Text.Identifier.isDigit_of_isStart start
  rw [scalar?, List.cons_append, quoted?_none noQuote, number?_none noDigit ⟨noMinus, noPlus⟩,
    ← List.cons_append, word?, read]
  rfl

theorem scalar?_none {c : Char} (noQuote : c ≠ '"') (noStart : Text.Identifier.isStart c = false)
    {rest : List Char} (noNumber : number? (c :: rest) = none) : scalar? (c :: rest) = none := by
  simp [scalar?, quoted?_none noQuote, noNumber, word?, Text.Identifier.read?, noStart]

theorem scalar?_ruleText (s : Scalar) {rest : List Char} (ends : Ends rest) :
    scalar? (s.ruleText ++ rest) = s.echo?.map fun echo => (echo, rest) := by
  have stop := stops_of_ends (p := Text.Identifier.isPart) (by decide) (by decide) ends
  cases s with
  | int n =>
    exact scalar?_number (number?_integerText n ends)
  | float x =>
    cases x with
    | finite negative m =>
      exact scalar?_number (number?_ruleText negative m ends)
    | infinite negative =>
      cases negative with
      | true => exact scalar?_none (by decide) (by decide) rfl
      | false => exact scalar?_word "inf".toList (by decide) stop
    | nan => exact scalar?_word "NaN".toList (by decide) stop
  | bool b =>
    cases b with
    | true => exact scalar?_word "true".toList (by decide) stop
    | false => exact scalar?_word "false".toList (by decide) stop
  | text s => exact scalar?_quoted s rest

/-! ## Lists -/

def tailText (items : List Scalar) : List Char :=
  items.flatMap fun s => ',' :: ' ' :: s.ruleText

theorem intercalate_items (first : Scalar) (items : List Scalar) :
    [',', ' '].intercalate ((first :: items).map Scalar.ruleText) =
      first.ruleText ++ tailText items := by
  induction items generalizing first with
  | nil => simp [tailText]
  | cons second items ih =>
    have later := ih second
    rw [List.map_cons, List.map_cons] at *
    rw [List.intercalate_cons_cons, later]
    simp [tailText]

theorem ends_tailText (items : List Scalar) (rest : List Char) :
    Ends (tailText items ++ ']' :: rest) := by
  intro c mem
  cases items with
  | nil => exact .inr (by simpa [tailText] using mem.symm)
  | cons s items => exact .inl (by simpa [tailText] using mem.symm)

theorem skipGaps_ruleText (s : Scalar) (rest : List Char) :
    Text.skipGaps (s.ruleText ++ rest) = s.ruleText ++ rest := by
  obtain ⟨c, cs, text, bare⟩ := s.ruleText_head
  simp [text, Text.skipGaps, isGap_of_bare bare]

theorem moreItems?_tailText (items : List Scalar) (rest : List Char) (fuel : Nat)
    (enough : items.length < fuel) :
    moreItems? fuel (tailText items ++ ']' :: rest) =
      (items.mapM Scalar.echo?).map fun echoes => (echoes, rest) := by
  induction items generalizing fuel with
  | nil =>
    obtain ⟨fuel, rfl⟩ : ∃ k, fuel = k + 1 := ⟨fuel - 1, by simp at enough; omega⟩
    simp [moreItems?, tailText, Text.skipGaps, Text.isGap]
  | cons s items ih =>
    obtain ⟨fuel, rfl⟩ : ∃ k, fuel = k + 1 := ⟨fuel - 1, by simp at enough; omega⟩
    have later := ih fuel (by simpa using enough)
    have read := scalar?_ruleText s (ends_tailText items rest)
    have text : Text.skipGaps (tailText (s :: items) ++ ']' :: rest) =
        ',' :: ' ' :: (s.ruleText ++ (tailText items ++ ']' :: rest)) := by
      simp [tailText, Text.skipGaps, Text.isGap]
    have gap : Text.skipGaps (' ' :: (s.ruleText ++ (tailText items ++ ']' :: rest))) =
        s.ruleText ++ (tailText items ++ ']' :: rest) :=
      skipGaps_ruleText s _
    simp only [moreItems?, text, gap, read]
    cases echo : s.echo? with
    | none => simp [echo]
    | some e =>
      simp [echo, later]
      cases items.mapM Scalar.echo? <;> rfl

theorem length_le_tailText (items : List Scalar) : items.length ≤ (tailText items).length := by
  induction items with
  | nil => simp
  | cons s items ih =>
    simp only [tailText, List.flatMap_cons, List.length_append, List.length_cons] at ih ⊢
    omega

theorem list?_ruleText (items : List Scalar) (rest : List Char) :
    list? ((Value.list items).ruleText ++ rest) =
      (items.mapM Scalar.echo?).map fun echoes => (echoes, rest) := by
  cases items with
  | nil => rfl
  | cons s items =>
    have read := scalar?_ruleText s (ends_tailText items rest)
    have enough := length_le_tailText items
    have more := moreItems?_tailText items rest ((tailText items ++ ']' :: rest).length + 1) (by
        rw [List.length_append]
        omega)
    have text : (Value.list (s :: items)).ruleText ++ rest =
        '[' :: (s.ruleText ++ (tailText items ++ ']' :: rest)) := by
      rw [Value.ruleText, intercalate_items]
      simp
    rw [text, list?]
    simp only [skipGaps_ruleText, read, List.mapM_cons]
    cases s.echo? with
    | none =>
      obtain ⟨c, cs, head, bare⟩ := s.ruleText_head
      rw [head]
      simp only [Option.map_none]
      split
      · next same => exact absurd (List.cons.inj same).1 ((isBare_iff c).mp bare).2.2
      · rfl
    | some e =>
      simp only [Option.map_some, more]
      cases items.mapM Scalar.echo? <;> rfl

theorem list?_bare {c : Char} (bare : isBare c) (rest : List Char) : list? (c :: rest) = none := by
  rw [list?]
  intro tail same
  exact ((isBare_iff c).mp bare).2.1 (List.cons.inj same).1

theorem value?_ruleText (v : Value) {rest : List Char} (ends : Ends rest) :
    value? (v.ruleText ++ rest) = v.echo?.map fun echo => (echo, rest) := by
  cases v with
  | scalar s =>
    have none : list? ((Value.scalar s).ruleText ++ rest) = none := by
      obtain ⟨c, cs, head, bare⟩ := s.ruleText_head
      rw [Value.ruleText, head, List.cons_append, list?_bare bare]
    have read : scalar? ((Value.scalar s).ruleText ++ rest) = _ := scalar?_ruleText s ends
    rw [value?, none, read, Value.echo?]
    cases s.echo? <;> rfl
  | list items =>
    have none : scalar? ((Value.list items).ruleText ++ rest) = none :=
      scalar?_none (by decide) (by decide) (number?_none (by decide) (by decide) _)
    rw [value?, none, list?_ruleText, Value.echo?]
    cases items.mapM Scalar.echo? <;> rfl

/-! ## Conditions -/

/-- A gap tells an operator from the longer ones that start with it. -/
theorem operator?_symbol (op : Operator) {c : Char} (gap : Text.isGap c) (rest : List Char) :
    operator? (op.symbol.toList ++ c :: rest) = some (op, c :: rest) := by
  rcases (Text.isGap_iff c).mp gap with rfl | rfl
  · cases op <;> rfl
  · cases op <;> rfl

theorem gap?_append {gaps cs : List Char} (filled : gaps ≠ []) (gap : ∀ c ∈ gaps, Text.isGap c)
    (solid : ∀ c ∈ cs.head?, Text.isGap c = false) : gap? (gaps ++ cs) = some cs := by
  cases gaps with
  | nil => contradiction
  | cons c gaps =>
    have stay : Text.skipGaps (gaps ++ cs) = cs :=
      Text.dropWhile_append_stop (fun d mem => gap d (by simp [mem])) solid
    rw [List.cons_append, gap?, if_pos (gap c (by simp)), stay]

theorem gap?_space {cs : List Char} (solid : ∀ c ∈ cs.head?, Text.isGap c = false) :
    gap? (' ' :: cs) = some cs :=
  gap?_append (List.cons_ne_nil ' ' []) (by simp [Text.isGap]) solid

theorem isGap_symbol (op : Operator) (rest : List Char) :
    ∀ c ∈ (op.symbol.toList ++ rest).head?, Text.isGap c = false := by
  cases op <;> simp [Operator.symbol, Text.isGap]

theorem isGap_value (v : Value) : ∀ c ∈ v.ruleText.head?, Text.isGap c = false := by
  cases v with
  | scalar s => exact fun c mem => isGap_of_bare (s.bare_ends.1 c mem)
  | list items => simp [Value.ruleText, Text.isGap]

theorem ruleText_eq (c : Condition) :
    c.ruleText =
      c.field.toList ++ ' ' :: (c.operator.symbol.toList ++ ' ' :: c.value.ruleText) := by
  simp [Condition.ruleText]

theorem condition_ruleText {c : Condition} (named : Text.Identifier.isIdentifier c.field.toList) :
    condition c.ruleText =
      match c.value.echo? with
      | some echo => .ok { c with value := echo }
      | none => .error [.number, .string, .boolean, .word] := by
  have stop : ∀ d ∈ (' ' :: (c.operator.symbol.toList ++ ' ' :: c.value.ruleText)).head?,
      Text.Identifier.isPart d = false := Text.stop_cons (by decide) _
  have nothing : Ends [] := by simp [Ends]
  have value := value?_ruleText c.value nothing
  rw [List.append_nil] at value
  rw [ruleText_eq, condition, Text.Identifier.read?_append named stop]
  simp only [gap?_space (isGap_symbol c.operator _), operator?_symbol c.operator (c := ' ') rfl,
    gap?_space (isGap_value c.value), value]
  cases c.value.echo? with
  | none => rfl
  | some echo => simp [Text.skipGaps]

end Reading

end Commission
