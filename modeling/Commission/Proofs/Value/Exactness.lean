import Commission.Proofs.Value.Echo
import Mathlib.Data.Option.Basic

/-!
Reading values is exact: a reader takes a phrase of the grammar off the front of its text, and it
takes any phrase behind which a gap, a comma, a closing bracket or nothing stands. Main statements:
`value?_sound` and `value?_complete`.
-/
namespace Commission.Condition.Grammar

open Reading

abbrev Reader (α : Type) : Type := List Char → Option (α × List Char)

def Sound {α : Type} (reader : Reader α) (Phrase : List Char → α → Prop) : Prop :=
  ∀ cs value rest, reader cs = some (value, rest) → ∃ text, cs = text ++ rest ∧ Phrase text value

def Closes (rest : List Char) : Prop :=
  ∀ c ∈ rest.head?, Text.isGap c ∨ c = ',' ∨ c = ']'

def Complete {α : Type} (reader : Reader α) (Phrase : List Char → α → Prop) : Prop :=
  ∀ text value rest, Phrase text value → Closes rest → reader (text ++ rest) = some (value, rest)

/-! ## Gaps -/

theorem skipGaps_split (cs : List Char) :
    ∃ gaps, Gaps gaps ∧ cs = gaps ++ Text.skipGaps cs :=
  ⟨cs.takeWhile Text.isGap, fun _ mem => Text.mem_takeWhile mem,
    List.takeWhile_append_dropWhile.symm⟩

theorem skipGaps_append {gaps cs : List Char} (gap : Gaps gaps)
    (solid : ∀ c ∈ cs.head?, Text.isGap c = false) : Text.skipGaps (gaps ++ cs) = cs :=
  Text.dropWhile_append_stop gap solid

theorem skipGaps_gaps {gaps : List Char} (gap : Gaps gaps) : Text.skipGaps gaps = [] := by
  have nothing : ∀ c ∈ ([] : List Char).head?, Text.isGap c = false := by simp
  simpa using skipGaps_append gap nothing

theorem closes_nil : Closes [] := by
  simp [Closes]

theorem closes_append {gaps cs : List Char} (gap : Gaps gaps) (closes : Closes cs) :
    Closes (gaps ++ cs) := by
  cases gaps with
  | nil => exact closes
  | cons c gaps =>
    intro d mem
    obtain rfl : c = d := by simpa using mem
    exact .inl (gap c (by simp))

theorem closes_comma (cs : List Char) : Closes (',' :: cs) := by
  simp [Closes]

theorem closes_bracket (cs : List Char) : Closes (']' :: cs) := by
  simp [Closes]

theorem stops_of_closes {p : Char → Bool} (space : p ' ' = false) (tab : p '\t' = false)
    (comma : p ',' = false) (bracket : p ']' = false) {rest : List Char} (closes : Closes rest) :
    ∀ c ∈ rest.head?, p c = false := by
  intro c mem
  rcases closes c mem with gap | rfl | rfl
  · rcases (Text.isGap_iff c).mp gap with rfl | rfl
    · exact space
    · exact tab
  · exact comma
  · exact bracket

/-! ## Quoted texts -/

theorem escape_iff (c : Char) (meaning : List Char) :
    Escape c meaning ↔ meaning = Text.Quoted.unescape c := by
  constructor
  · intro escape
    cases escape with
    | other plain =>
      rw [Text.Quoted.unescape]
      · exact plain.1
      · exact plain.2.1
      · exact plain.2.2.1
      · exact plain.2.2.2
    | _ => rfl
  · rintro rfl
    unfold Text.Quoted.unescape
    split
    · exact .quote
    · exact .backslash
    · exact .feed
    · exact .tab
    · next quote backslash feed tab => exact .other ⟨quote, backslash, feed, tab⟩

theorem read?_content {cs content : List Char} (inside : Content cs content) (rest : List Char) :
    Text.Quoted.read? (cs ++ '"' :: rest) = some (content, rest) := by
  induction inside with
  | nil => simp [Text.Quoted.read?]
  | plain unquoted unescaped more ih =>
    rw [List.cons_append, Text.Quoted.read?, ih]
    · rfl
    · exact unquoted
    · exact fun same _ => unescaped same
    · exact fun _ _ same _ => unescaped same
  | escaped escape more ih =>
    rw [List.cons_append, List.cons_append, Text.Quoted.read?, ih, (escape_iff _ _).mp escape]
    rfl

theorem content_of_read? {cs content rest : List Char}
    (read : Text.Quoted.read? cs = some (content, rest)) :
    ∃ text, cs = text ++ '"' :: rest ∧ Content text content := by
  fun_induction Text.Quoted.read? cs generalizing content with
  | case1 => contradiction
  | case2 cs =>
    obtain ⟨rfl, rfl⟩ := by simpa using read
    exact ⟨[], rfl, .nil⟩
  | case3 => contradiction
  | case4 c cs ih =>
    obtain ⟨⟨inner, rest'⟩, run, same⟩ := Option.map_eq_some_iff.mp read
    obtain ⟨rfl, rfl⟩ := by simpa using same
    obtain ⟨text, rfl, inside⟩ := ih run
    exact ⟨'\\' :: c :: text, rfl, .escaped ((escape_iff _ _).mpr rfl) inside⟩
  | case5 c cs unquoted single double ih =>
    obtain ⟨⟨inner, rest'⟩, run, same⟩ := Option.map_eq_some_iff.mp read
    obtain ⟨rfl, rfl⟩ := by simpa using same
    obtain ⟨text, rfl, inside⟩ := ih run
    refine ⟨c :: text, rfl, .plain unquoted ?_ inside⟩
    -- something stands behind the backslash, at least the closing quote
    rintro rfl
    cases text with
    | nil => exact double _ _ rfl rfl
    | cons d text => exact double _ _ rfl rfl

theorem quoted?_sound : Sound quoted? Item := by
  intro cs s rest read
  unfold quoted? at read
  split at read
  · next cs =>
    obtain ⟨⟨content, rest'⟩, run, same⟩ := Option.map_eq_some_iff.mp read
    obtain ⟨rfl, rfl⟩ := by simpa using same
    obtain ⟨text, rfl, inside⟩ := content_of_read? run
    exact ⟨'"' :: (text ++ ['"']), by simp, .quoted inside⟩
  · contradiction

/-! ## Numbers -/

theorem sign_split (cs : List Char) :
    ∃ before, Sign before (sign cs).1 ∧ cs = before ++ (sign cs).2 := by
  unfold sign
  split
  · exact ⟨_, .minus, rfl⟩
  · exact ⟨_, .plus, rfl⟩
  · exact ⟨_, .none, rfl⟩

theorem whole?_sound {cs digits rest : List Char} (read : whole? cs = some (digits, rest)) :
    cs = digits ++ rest ∧ Numeral digits := by
  cases cs with
  | nil => contradiction
  | cons c cs =>
    simp only [whole?] at read
    split at read
    · next zero =>
      obtain ⟨rfl, rfl⟩ := by simpa using read
      exact ⟨by rw [zero]; rfl, .zero⟩
    · next lead =>
      split at read
      · next digit =>
        obtain ⟨rfl, rfl⟩ := by simpa using read
        refine ⟨by simp, .positive lead fun d mem => ?_⟩
        rcases List.mem_cons.mp mem with rfl | mem
        · exact digit
        · exact Text.mem_takeWhile mem
      · contradiction

theorem fraction?_sound {cs digits rest : List Char} (read : fraction? cs = some (digits, rest)) :
    cs = '.' :: (digits ++ rest) ∧ digits ≠ [] ∧ ∀ c ∈ digits, c.isDigit := by
  unfold fraction? at read
  split at read
  · next cs =>
    simp only at read
    split at read
    · contradiction
    · next filled =>
      obtain ⟨rfl, rfl⟩ := by simpa using read
      exact ⟨by simp, by simpa using filled, fun c mem => Text.mem_takeWhile mem⟩
  · contradiction

theorem int64?_sound {i : Int} {n : Int64} (fits : int64? i = some n) : n.toInt = i := by
  unfold int64? at fits
  split at fits
  · next bounds =>
    obtain rfl := Option.some.inj fits
    have largest : Int64.maxValue.toInt = 2 ^ 63 - 1 := by decide
    exact Int64.toInt_ofInt_of_le bounds.1 (by omega)
  · contradiction

theorem number?_sound : Sound number? Number := by
  intro cs s rest read
  obtain ⟨before, signed, split⟩ := sign_split cs
  simp only [number?] at read
  obtain ⟨⟨whole, after⟩, run, read⟩ := Option.bind_eq_some_iff.mp read
  obtain ⟨between, numeral⟩ := whole?_sound run
  rw [between] at split
  simp only at read
  cases point : fraction? after with
  | some parts =>
    obtain ⟨fraction, tail⟩ := parts
    obtain ⟨follows, filled, digits⟩ := fraction?_sound point
    rw [point] at read
    obtain ⟨rfl, rfl⟩ := by simpa using read
    refine ⟨before ++ (whole ++ '.' :: fraction), ?_, .float signed numeral filled digits⟩
    rw [split, follows]
    simp
  | none =>
    rw [point] at read
    obtain ⟨n, fits, read⟩ := Option.bind_eq_some_iff.mp read
    obtain ⟨rfl, rfl⟩ := by simpa using read
    exact ⟨before ++ whole, by rw [split, List.append_assoc],
      .integer signed numeral (int64?_sound fits)⟩

theorem number?_complete : Complete number? Number := by
  intro cs s rest number closes
  have noDigit := stops_of_closes (p := Char.isDigit) (by decide) (by decide) (by decide)
    (by decide) closes
  have noPoint := stops_of_closes (p := (· == '.')) (by decide) (by decide) (by decide)
    (by decide) closes
  cases number with
  | integer signed numeral value =>
    rw [List.append_assoc]
    exact number?_integer signed numeral value noDigit (by simpa using noPoint)
  | float signed numeral filled digits =>
    rw [List.append_assoc, List.append_assoc, List.cons_append]
    exact number?_float signed numeral filled digits noDigit

/-! ## Words and scalars -/

theorem ofList_eq_iff (name : List Char) (s : String) :
    String.ofList name = s ↔ name = s.toList := by
  constructor
  · rintro rfl
    rw [String.toList_ofList]
  · rintro rfl
    rw [String.ofList_toList]

theorem word_iff {name : List Char} (named : Text.Identifier.isIdentifier name) (s : Scalar) :
    Word name s ↔ s = ofWord name := by
  simp only [ofWord, ofList_eq_iff]
  constructor
  · intro word
    cases word with
    | true => rfl
    | false => rfl
    | text named noTruth => rw [if_neg noTruth.1, if_neg noTruth.2]
  · rintro rfl
    split
    · next isTrue =>
      rw [isTrue]
      exact .true
    · next notTrue =>
      split
      · next isFalse =>
        rw [isFalse]
        exact .false
      · next notFalse => exact .text named ⟨notTrue, notFalse⟩

theorem isIdentifier_of_word {name : List Char} {s : Scalar} (word : Word name s) :
    Text.Identifier.isIdentifier name := by
  cases word with
  | true => decide
  | false => decide
  | text named _ => exact named

theorem word?_sound : Sound word? Word := by
  intro cs s rest read
  obtain ⟨⟨name, rest'⟩, run, same⟩ := Option.map_eq_some_iff.mp read
  obtain ⟨rfl, rfl⟩ := by simpa using same
  obtain ⟨split, named, -⟩ := Text.Identifier.read?_eq_some run
  exact ⟨name, split, (word_iff named _).mpr rfl⟩

theorem scalar?_sound : Sound scalar? Item := by
  intro cs s rest read
  rcases (Option.orElse_eq_some _ _ _).mp read with quoted | ⟨-, unquoted⟩
  · exact quoted?_sound _ _ _ quoted
  · rcases (Option.orElse_eq_some _ _ _).mp unquoted with number | ⟨-, word⟩
    · obtain ⟨text, split, phrase⟩ := number?_sound _ _ _ number
      exact ⟨text, split, .number phrase⟩
    · obtain ⟨text, split, phrase⟩ := word?_sound _ _ _ word
      exact ⟨text, split, .word phrase⟩

theorem scalar?_complete : Complete scalar? Item := by
  intro cs s rest item closes
  cases item with
  | quoted inside =>
    have read := read?_content inside rest
    simp [scalar?, quoted?, read]
  | number number => exact scalar?_number (number?_complete _ _ _ number closes)
  | word word =>
    have named := isIdentifier_of_word word
    have stop := stops_of_closes (p := Text.Identifier.isPart) (by decide) (by decide) (by decide)
      (by decide) closes
    rw [(word_iff named s).mp word]
    exact scalar?_word cs named stop

/-! ## Lists -/

theorem bare_of_isStart {c : Char} (start : Text.Identifier.isStart c) : isBare c := by
  refine (isBare_iff c).mpr ⟨Text.isBlank_of_isStart start, ?_, ?_⟩
  · exact Text.Identifier.ne_of_isStart start (by decide)
  · exact Text.Identifier.ne_of_isStart start (by decide)

theorem bare_sign {before : List Char} {negative : Bool} (signed : Sign before negative) :
    ∀ c ∈ before, isBare c := by
  cases signed with
  | none => simp
  | plus => exact List.all_eq_true.mp (by decide)
  | minus => exact List.all_eq_true.mp (by decide)

theorem signed_head {before digits : List Char} {negative : Bool} (signed : Sign before negative)
    (numeral : Numeral digits) (cs : List Char) :
    ∃ c tail, before ++ (digits ++ cs) = c :: tail ∧ isBare c := by
  have bare := bare_sign signed
  cases before with
  | nil =>
    obtain ⟨c, tail, rfl, digit⟩ := numeral_head numeral
    exact ⟨c, tail ++ cs, rfl, bare_of_isDigit digit⟩
  | cons c tail => exact ⟨c, tail ++ (digits ++ cs), rfl, bare c (by simp)⟩

theorem number_head {cs : List Char} {s : Scalar} (number : Number cs s) :
    ∃ c tail, cs = c :: tail ∧ isBare c := by
  cases number with
  | integer signed numeral _ => simpa using signed_head signed numeral []
  | float signed numeral _ _ => exact signed_head signed numeral _

theorem item_head {cs : List Char} {s : Scalar} (item : Item cs s) :
    ∃ c tail, cs = c :: tail ∧ isBare c := by
  cases item with
  | quoted inside => exact ⟨_, _, rfl, by decide⟩
  | number number => exact number_head number
  | word word =>
    have named := isIdentifier_of_word word
    obtain ⟨c, tail, text, start⟩ := Text.Identifier.head_of_isIdentifier named
    exact ⟨c, tail, text, bare_of_isStart start⟩

theorem item_solid {cs : List Char} {s : Scalar} (item : Item cs s) (rest : List Char) :
    ∀ c ∈ (cs ++ rest).head?, Text.isGap c = false := by
  obtain ⟨c, tail, rfl, bare⟩ := item_head item
  exact Text.stop_cons (isGap_of_bare bare) _

theorem closes_moreItems {cs : List Char} {items : List Scalar} (more : MoreItems cs items)
    {rest : List Char} (closes : Closes rest) : Closes (cs ++ rest) := by
  cases more with
  | nil => exact closes
  | cons gaps _ _ _ =>
    rw [List.append_assoc]
    exact closes_append gaps (closes_comma _)

theorem moreItems?_sound {fuel : Nat} {cs rest : List Char} {items : List Scalar}
    (read : moreItems? fuel cs = some (items, rest)) :
    ∃ text gaps, cs = text ++ (gaps ++ ']' :: rest) ∧ MoreItems text items ∧ Gaps gaps := by
  induction fuel generalizing cs items with
  | zero => contradiction
  | succ fuel ih =>
    obtain ⟨before, gap, split⟩ := skipGaps_split cs
    rw [moreItems?] at read
    split at read
    · next tail here =>
      obtain ⟨rfl, rfl⟩ := by simpa using read
      exact ⟨[], before, by rw [← here]; exact split, .nil, gap⟩
    · next tail here =>
      obtain ⟨⟨s, between⟩, run, read⟩ := Option.bind_eq_some_iff.mp read
      obtain ⟨⟨later, rest'⟩, run', read⟩ := Option.bind_eq_some_iff.mp read
      obtain ⟨rfl, rfl⟩ := by simpa using read
      obtain ⟨after, gap', split'⟩ := skipGaps_split tail
      obtain ⟨text, split'', item⟩ := scalar?_sound _ _ _ run
      obtain ⟨more, gaps, rfl, phrase, gap''⟩ := ih run'
      refine ⟨before ++ ',' :: (after ++ (text ++ more)), gaps, ?_, .cons gap gap' item phrase,
        gap''⟩
      rw [split, here, split', split'']
      simp
    · contradiction

theorem moreItems?_complete {cs gaps : List Char} {items : List Scalar}
    (more : MoreItems cs items) (gap : Gaps gaps) (rest : List Char) {fuel : Nat}
    (enough : items.length < fuel) :
    moreItems? fuel (cs ++ (gaps ++ ']' :: rest)) = some (items, rest) := by
  induction more generalizing fuel with
  | nil =>
    obtain ⟨fuel, rfl⟩ := Nat.exists_eq_add_one_of_ne_zero (Nat.ne_zero_of_lt enough)
    have bracket := skipGaps_append gap (Text.stop_cons (x := ']') (by decide) rest)
    simp [moreItems?, bracket]
  | @cons before after cs more s items gap' gap'' item later ih =>
    obtain ⟨fuel, rfl⟩ := Nat.exists_eq_add_one_of_ne_zero (Nat.ne_zero_of_lt enough)
    have tail : moreItems? fuel (more ++ (gaps ++ ']' :: rest)) = some (items, rest) :=
      ih (by simpa using enough)
    have comma := skipGaps_append gap' (Text.stop_cons (x := ',') (by decide)
      (after ++ (cs ++ (more ++ (gaps ++ ']' :: rest)))))
    have solid := skipGaps_append gap'' (item_solid item (more ++ (gaps ++ ']' :: rest)))
    have read := scalar?_complete _ _ _ item
      (closes_moreItems later (closes_append gap (closes_bracket rest)))
    have text : before ++ ',' :: (after ++ (cs ++ more)) ++ (gaps ++ ']' :: rest) =
        before ++ ',' :: (after ++ (cs ++ (more ++ (gaps ++ ']' :: rest)))) := by simp
    rw [text, moreItems?, comma]
    simp [solid, read, tail]

theorem length_le_moreItems {cs : List Char} {items : List Scalar} (more : MoreItems cs items) :
    items.length ≤ cs.length := by
  induction more with
  | nil => simp
  | cons _ _ _ _ ih =>
    simp only [List.length_append, List.length_cons]
    omega

theorem list?_sound : Sound list? fun cs items => Operand cs (.list items) := by
  intro cs items rest read
  unfold list? at read
  split at read
  · next cs =>
    obtain ⟨before, gap, split⟩ := skipGaps_split cs
    simp only at read
    split at read
    · next s after run =>
      obtain ⟨⟨later, rest'⟩, run', read⟩ := Option.bind_eq_some_iff.mp read
      obtain ⟨rfl, rfl⟩ := by simpa using read
      obtain ⟨text, split', item⟩ := scalar?_sound _ _ _ run
      obtain ⟨more, gaps, rfl, phrase, gap'⟩ := moreItems?_sound run'
      refine ⟨'[' :: (before ++ (text ++ more ++ (gaps ++ [']']))), ?_,
        .list gap (.some item phrase) gap'⟩
      rw [split, split']
      simp
    · split at read
      · next after here =>
        obtain ⟨rfl, rfl⟩ := by simpa using read
        refine ⟨'[' :: (before ++ ([] ++ ([] ++ [']']))), ?_, .list gap .none (by simp [Gaps])⟩
        rw [split, here]
        simp
      · contradiction
  · contradiction

theorem scalar?_bracket (rest : List Char) : scalar? (']' :: rest) = none :=
  scalar?_none (by decide) (by decide) (number?_none (by decide) (by decide) rest)

theorem list?_complete {cs : List Char} {items : List Scalar} (list : Operand cs (.list items))
    (rest : List Char) : list? (cs ++ rest) = some (items, rest) := by
  cases list with
  | @list before inner after _ gap inside gap' =>
    have text : '[' :: (before ++ (inner ++ (after ++ [']']))) ++ rest =
        '[' :: (before ++ (inner ++ (after ++ ']' :: rest))) := by simp
    rw [text, list?]
    cases inside with
    | none =>
      have all : Gaps (before ++ after) := by
        intro c mem
        exact (List.mem_append.mp mem).elim (gap c) (gap' c)
      have bracket := skipGaps_append all (Text.stop_cons (x := ']') (by decide) rest)
      rw [List.append_assoc] at bracket
      simp [bracket, scalar?_bracket]
    | @some cs more s items first later =>
      have solid := skipGaps_append gap (item_solid first (more ++ (after ++ ']' :: rest)))
      have read := scalar?_complete _ _ _ first
        (closes_moreItems later (closes_append gap' (closes_bracket rest)))
      have enough : items.length < (more ++ (after ++ ']' :: rest)).length + 1 := by
        have := length_le_moreItems later
        rw [List.length_append]
        omega
      have tail := moreItems?_complete later gap' rest enough
      rw [List.append_assoc, solid]
      simp only [read, Option.bind_eq_bind, tail]
      rfl

theorem value?_sound : Sound value? Operand := by
  intro cs v rest read
  rcases (Option.orElse_eq_some _ _ _).mp read with list | ⟨-, scalar⟩
  · obtain ⟨⟨items, rest'⟩, run, same⟩ := Option.map_eq_some_iff.mp list
    obtain ⟨rfl, rfl⟩ := by simpa using same
    exact list?_sound _ _ _ run
  · obtain ⟨⟨s, rest'⟩, run, same⟩ := Option.map_eq_some_iff.mp scalar
    obtain ⟨rfl, rfl⟩ := by simpa using same
    obtain ⟨text, split, item⟩ := scalar?_sound _ _ _ run
    exact ⟨text, split, .scalar item⟩

theorem value?_complete : Complete value? Operand := by
  intro cs v rest operand closes
  cases v with
  | scalar s =>
    cases operand with
    | scalar item =>
      have read := scalar?_complete _ _ _ item closes
      obtain ⟨c, tail, rfl, bare⟩ := item_head item
      rw [value?, read, List.cons_append, list?_bare bare]
      rfl
  | list items =>
    rw [value?, list?_complete operand rest]
    rfl

end Commission.Condition.Grammar
