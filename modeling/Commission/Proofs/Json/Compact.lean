import Commission.Proofs.Json.Format
import Commission.Proofs.Json.Literal
import Commission.Proofs.Value.Exactness
import Mathlib.Data.List.Perm.Basic
import Mathlib.Data.List.TakeWhile

/-!
The compact format reads back what it writes: control characters without a letter of their own
return as the code units of their escapes, numbers as their literals say. Main statements:
`parse?_compactText`, `compact_faithful`, `compact_keeps` and `Format.Faithful.sorted`.
-/
namespace Commission.Json

/-! ## Strings -/

def rereadChar (c : Char) : Piece :=
  if c.toNat < 0x20 ∧ c ∉ ['\x08', '\x0c', '\n', '\r', '\t'] then .unit c.toNat else .char c

def spelling (s : String) : List Piece := s.toList.map rereadChar

def precede (piece : Piece) : List Piece × List Char → List Piece × List Char
  | (pieces, rest) => (piece :: pieces, rest)

theorem pieces?_letter {c d : Char} (letter : escaped? c = some d) (rest : List Char) :
    pieces? ('\\' :: c :: rest) = (pieces? rest).map (precede (.char d)) := by
  rw [pieces?]
  · rw [letter]
    cases pieces? rest <;> rfl
  · rintro a b c d rest rfl
    contradiction

theorem pieces?_unit {a b c d : Char} {n : Nat} (unit : codeUnit? a b c d = some n)
    (rest : List Char) :
    pieces? ('\\' :: 'u' :: a :: b :: c :: d :: rest) =
      (pieces? rest).map (precede (.unit n)) := by
  rw [pieces?, unit]
  cases pieces? rest <;> rfl

theorem pieces?_plain {c : Char} (quote : c ≠ '"') (backslash : c ≠ '\\')
    (visible : 0x20 ≤ c.toNat) (rest : List Char) :
    pieces? (c :: rest) = (pieces? rest).map (precede (.char c)) := by
  rw [pieces?]
  · have kept : ¬ (decide (c.toNat < 0x20) || c == '\\') := by
      simp [backslash, visible]
    rw [if_neg kept]
    rfl
  · exact quote
  · exact fun _ _ _ _ _ same => absurd same backslash
  · exact fun _ _ same => absurd same backslash

theorem unitText_control : ∀ n < 0x20, ∃ a b, unitText n = ['0', '0', a, b] ∧
    codeUnit? '0' '0' a b = some n := by
  have all : ∀ n < 0x20,
      unitText n = ['0', '0', Nat.digitChar (n / 16), Nat.digitChar (n % 16)] ∧
        codeUnit? '0' '0' (Nat.digitChar (n / 16)) (Nat.digitChar (n % 16)) = some n := by
    decide +kernel
  exact fun n small => ⟨_, _, all n small⟩

theorem pieces?_charText (c : Char) (rest : List Char) :
    pieces? (charText c ++ rest) = (pieces? rest).map (precede (rereadChar c)) := by
  by_cases lettered : c ∈ ['"', '\\', '\x08', '\x0c', '\n', '\r', '\t']
  · simp only [List.mem_cons, List.not_mem_nil, or_false] at lettered
    rcases lettered with rfl | rfl | rfl | rfl | rfl | rfl | rfl <;> exact pieces?_letter rfl rest
  · simp only [List.mem_cons, List.not_mem_nil, or_false, not_or] at lettered
    by_cases control : c.toNat < 0x20
    · obtain ⟨a, b, text, unit⟩ := unitText_control c.toNat control
      simp [charText, rereadChar, lettered, control, text, pieces?_unit unit]
    · simp [charText, rereadChar, lettered, control,
        pieces?_plain lettered.1 lettered.2.1 (Nat.le_of_not_lt control)]

theorem pieces?_chars (cs rest : List Char) :
    pieces? (cs.flatMap charText ++ '"' :: rest) = some (cs.map rereadChar, rest) := by
  induction cs with
  | nil => rfl
  | cons c cs ih =>
    rw [List.flatMap_cons, List.append_assoc, pieces?_charText, ih]
    rfl

theorem decode?_unit {n : Nat} (plain : n < 0xD800) (pieces : List Piece) :
    decode? (.unit n :: pieces) = (decode? pieces).map (Char.ofNat n :: ·) := by
  have high : isHighHalf n = false := by simp [isHighHalf]; omega
  have low : isLowHalf n = false := by simp [isLowHalf]; omega
  cases pieces with
  | nil => simp [decode?, high, low]
  | cons piece pieces => cases piece <;> simp [decode?, high, low]

theorem decode?_reread (cs : List Char) : decode? (cs.map rereadChar) = some cs := by
  induction cs with
  | nil => rfl
  | cons c cs ih =>
    rw [List.map_cons, rereadChar]
    split
    · next control =>
      rw [decode?_unit (by omega), ih, Char.ofNat_toNat]
      rfl
    · rw [decode?, ih]
      rfl

theorem decodedText?_spelling (s : String) : decodedText? (spelling s) = some s := by
  rw [decodedText?, spelling, decode?_reread, Option.map_some, String.ofList_toList]

def spelled (members : List (String × Json)) : List (List Piece × Json) :=
  members.map fun m => (spelling m.1, m.2)

theorem ofMembers_spelled (members : List (String × Json)) :
    ofMembers (spelled members) = object members := by
  have named : (spelled members).mapM decodedMember? = some members := by
    induction members with
    | nil => rfl
    | cons member members ih =>
      rw [spelled] at ih
      simp [spelled, decodedMember?, decodedText?_spelling, ih]
  rw [ofMembers, named]

/-! ## Trees -/

/-- The text is taken off the front of a longer one, and the tree is read from it. -/
structure Reads (text : List Char) (j : Json) : Prop where
  head : ∃ c cs, text = c :: cs ∧ isSpace c = false ∧ c ≠ ']'
  value : ∀ fuel rest, 2 * text.length ≤ fuel → Ends rest →
    value? fuel (text ++ rest) = some (j, rest)

theorem skipSpaces_cons {c : Char} (solid : isSpace c = false) (cs : List Char) :
    skipSpaces (c :: cs) = c :: cs := by
  rw [skipSpaces, List.dropWhile_cons_of_neg (by simp [solid])]

theorem reads_of_head {c : Char} {cs : List Char} {j : Json} (solid : isSpace c = false)
    (other : c ≠ ']') (value : ∀ fuel rest, 2 * cs.length + 1 ≤ fuel → Ends rest →
      value? (fuel + 1) (c :: (cs ++ rest)) = some (j, rest)) : Reads (c :: cs) j where
  head := ⟨c, cs, rfl, solid, other⟩
  value fuel rest enough ends := by
    cases fuel with
    | zero => simp at enough
    | succ fuel =>
      rw [List.length_cons] at enough
      exact value fuel rest (by omega) ends

theorem reads_null : Reads "null".toList null :=
  reads_of_head (by decide) (by decide) fun _ _ _ _ => rfl

theorem reads_bool (b : Bool) : Reads (toString b).toList (bool b) := by
  cases b <;> exact reads_of_head (by decide) (by decide) fun _ _ _ _ => rfl

theorem reads_quoted (s : String) : Reads (quoted s) (text s) := by
  refine reads_of_head (by decide) (by decide) fun fuel rest _ _ => ?_
  have read := pieces?_chars s.toList rest
  have text : ofPieces (s.toList.map rereadChar) = text s := by
    rw [ofPieces, ← spelling, decodedText?_spelling]
  simp [value?, skipSpaces_cons (show isSpace '"' = false by decide), read, text]

theorem text_head {l : Literal} (formed : l.WellFormed) :
    ∃ c cs, l.text = c :: cs ∧ (c = '-' ∨ c.isDigit) := by
  obtain ⟨c, cs, whole, digit⟩ := numeral_head formed.whole
  rw [Literal.text_eq, whole]
  cases l.negative with
  | true => exact ⟨_, _, rfl, .inl rfl⟩
  | false => exact ⟨_, _, rfl, .inr digit⟩

theorem number_head {c : Char} (head : c = '-' ∨ c.isDigit) :
    isSpace c = false ∧ c ≠ 'n' ∧ c ≠ 't' ∧ c ≠ 'f' ∧ c ≠ '"' ∧ c ≠ '[' ∧ c ≠ ']' ∧ c ≠ '\x7b' ∧
      c ≠ '\x7d' := by
  rcases head with rfl | digit
  · decide
  · refine ⟨?_, ?_, ?_, ?_, ?_, ?_, ?_, ?_, ?_⟩
    · simp only [isSpace, Bool.or_eq_false_iff, beq_eq_false_iff_ne]
      refine ⟨⟨⟨?_, ?_⟩, ?_⟩, ?_⟩ <;> rintro rfl <;> contradiction
    all_goals
      rintro rfl
      contradiction

theorem reads_literal {l : Literal} (formed : l.WellFormed) : Reads l.text l.tree := by
  obtain ⟨c, cs, text, head⟩ := text_head formed
  obtain ⟨solid, other⟩ := number_head head
  rw [text]
  refine reads_of_head solid other.2.2.2.2.2.1 fun fuel rest _ ends => ?_
  have read := literal?_text formed ends
  rw [text, List.cons_append] at read
  rw [value?, skipSpaces_cons solid]
  split <;> simp_all

theorem items?_commaSeparated {texts : List (List Char)} {items : List Json}
    (reads : List.Forall₂ Reads texts items) (filled : texts ≠ []) (fuel : Nat) (rest : List Char)
    (enough : 2 * (commaSeparated texts).length + 1 ≤ fuel) :
    items? fuel (commaSeparated texts ++ ']' :: rest) = some (items, rest) := by
  induction reads generalizing fuel with
  | nil => contradiction
  | cons first reads ih =>
    cases fuel with
    | zero => simp at enough
    | succ fuel =>
      cases reads with
      | nil =>
        simp only [commaSeparated] at enough
        have value := first.value fuel (']' :: rest) (by omega) (ends_cons (by simp) _)
        simp [items?, commaSeparated, value, skipSpaces_cons, isSpace]
      | @cons next _ texts _ _ _ =>
        simp only [commaSeparated, List.length_append, List.length_cons] at enough
        have value := first.value fuel (',' :: (commaSeparated (next :: texts) ++ ']' :: rest))
          (by omega) (ends_cons (by simp) _)
        have later := ih (by simp) fuel (by omega)
        simp [items?, commaSeparated, value, later, skipSpaces_cons, isSpace]

theorem value?_bracket {c : Char} (solid : isSpace c = false) (other : c ≠ ']') (fuel : Nat)
    (cs : List Char) :
    value? (fuel + 1) ('[' :: c :: cs) =
      (items? fuel (c :: cs)).map fun (items, rest) => (array items, rest) := by
  rw [value?, skipSpaces_cons (by decide)]
  simp only [skipSpaces_cons solid]
  split
  · next same => exact absurd (List.cons.inj same).1 other
  · rfl

theorem commaSeparated_cons (part : List Char) (rest : List (List Char)) :
    ∃ more, commaSeparated (part :: rest) = part ++ more := by
  cases rest with
  | nil => exact ⟨[], (List.append_nil _).symm⟩
  | cons => exact ⟨_, rfl⟩

theorem reads_arrayText {texts : List (List Char)} {items : List Json}
    (reads : List.Forall₂ Reads texts items) : Reads (arrayText texts) (array items) := by
  rw [arrayText]
  refine reads_of_head (by decide) (by decide) fun fuel rest enough _ => ?_
  cases reads with
  | nil => rfl
  | @cons text _ texts _ first later =>
    simp only [List.length_append, List.length_cons, List.length_nil] at enough
    have all := items?_commaSeparated (.cons first later) (by simp) fuel rest (by omega)
    obtain ⟨c, cs, start, solid, other⟩ := first.head
    obtain ⟨more, head⟩ := commaSeparated_cons text texts
    rw [head, start, List.cons_append, List.cons_append] at all
    rw [head, start]
    simp only [List.cons_append, List.append_assoc, List.nil_append] at all ⊢
    rw [value?_bracket solid other, all]
    rfl

theorem members?_commaSeparated {texts : List (String × List Char)} {members : List (String × Json)}
    (reads : List.Forall₂ (fun t m => t.1 = m.1 ∧ Reads t.2 m.2) texts members)
    (filled : texts ≠ []) (fuel : Nat) (rest : List Char)
    (enough : 2 * (commaSeparated (texts.map memberText)).length + 1 ≤ fuel) :
    members? fuel (commaSeparated (texts.map memberText) ++ '\x7d' :: rest) =
      some (spelled members, rest) := by
  induction reads generalizing fuel with
  | nil => contradiction
  | @cons text member texts members first reads ih =>
    obtain ⟨key, text⟩ := text
    obtain ⟨name, value⟩ := member
    obtain ⟨rfl, read⟩ : key = name ∧ Reads text value := first
    have own : memberText (key, text) = quoted key ++ ':' :: text := rfl
    cases fuel with
    | zero => simp at enough
    | succ fuel =>
      cases reads with
      | nil =>
        simp only [List.map_cons, List.map_nil, commaSeparated, own, List.length_append,
          List.length_cons] at enough
        have value := read.value fuel ('\x7d' :: rest) (by omega) (ends_cons (by simp) _)
        simp [members?, commaSeparated, own, quoted, pieces?_chars, value, skipSpaces_cons,
          isSpace, spelling, spelled]
      | @cons next _ texts _ _ _ =>
        rw [List.map_cons] at enough ⊢
        generalize parts : (next :: texts).map memberText = tail at ih enough ⊢
        have split : commaSeparated (memberText (key, text) :: tail) =
            quoted key ++ ':' :: (text ++ ',' :: commaSeparated tail) := by
          rw [← parts, own]
          simp [commaSeparated]
        simp only [split, List.length_append, List.length_cons] at enough
        have value := read.value fuel (',' :: (commaSeparated tail ++ '\x7d' :: rest)) (by omega)
          (ends_cons (by simp) _)
        have later := ih (by simp) fuel (by omega)
        simp [members?, split, quoted, pieces?_chars, value, later, skipSpaces_cons, isSpace,
          spelling, spelled]

theorem value?_brace (fuel : Nat) (cs : List Char) :
    value? (fuel + 1) ('\x7b' :: '"' :: cs) =
      (members? fuel ('"' :: cs)).map fun (members, rest) => (ofMembers members, rest) :=
  rfl

theorem reads_objectText {texts : List (String × List Char)} {members : List (String × Json)}
    (reads : List.Forall₂ (fun t m => t.1 = m.1 ∧ Reads t.2 m.2) texts members) :
    Reads (objectText texts) (object members) := by
  rw [objectText]
  refine reads_of_head (by decide) (by decide) fun fuel rest enough _ => ?_
  cases reads with
  | nil => rfl
  | @cons text _ texts _ first later =>
    simp only [List.length_append, List.length_cons, List.length_nil] at enough
    have all := members?_commaSeparated (.cons first later) (by simp) fuel rest (by omega)
    obtain ⟨more, head⟩ :
        ∃ more, commaSeparated ((text :: texts).map memberText) = '"' :: more := by
      obtain ⟨more, head⟩ := commaSeparated_cons (memberText text) (texts.map memberText)
      exact ⟨_, head⟩
    rw [head, List.cons_append] at all
    rw [head]
    simp only [List.cons_append, List.append_assoc, List.nil_append]
    rw [value?_brace, all, Option.map_some]
    simp only [ofMembers_spelled]

/-! ## The format -/

mutual

def reread : Json → Json
  | int n => (Literal.ofInt n).tree
  | float x => match Literal.ofFloat? x with
    | some l => l.tree
    | none => null
  | array items => array (rereadItems items)
  | object members => object (rereadMembers members)
  | unreadable => null
  | j => j

def rereadItems : List Json → List Json
  | [] => []
  | item :: rest => item.reread :: rereadItems rest

def rereadMembers : List (String × Json) → List (String × Json)
  | [] => []
  | (key, value) :: rest => (key, value.reread) :: rereadMembers rest

end

theorem reads_float (x : Binary64) : Reads (floatText x) (float x).reread := by
  cases x with
  | finite negative m =>
    obtain ⟨l, written, formed, -, -⟩ := ofFloat?_finite negative m
    rw [floatText, reread, written]
    exact reads_literal formed
  | _ => exact reads_null

mutual

theorem reads_compactText : ∀ j : Json, Reads j.compactText j.reread
  | .null | .unreadable => reads_null
  | .bool b => reads_bool b
  | .int n => reads_literal (wellFormed_ofInt n)
  | .float x => reads_float x
  | .text s => reads_quoted s
  | .array items => reads_arrayText (reads_itemTexts items)
  | .object members => reads_objectText (reads_memberTexts members)

theorem reads_itemTexts :
    ∀ items : List Json, List.Forall₂ Reads (itemTexts items) (rereadItems items)
  | [] => .nil
  | item :: rest => .cons (reads_compactText item) (reads_itemTexts rest)

theorem reads_memberTexts : ∀ members : List (String × Json),
    List.Forall₂ (fun t m => t.1 = m.1 ∧ Reads t.2 m.2) (memberTexts members)
      (rereadMembers members)
  | [] => .nil
  | (_, value) :: rest => .cons ⟨rfl, reads_compactText value⟩ (reads_memberTexts rest)

end

/-- What is written is read back, with every part read from its own text. -/
theorem parse?_compactText (j : Json) :
    Format.compact.back? j = some j.reread := by
  have read := (reads_compactText j).value (2 * j.compactText.length + 1) [] (by omega) ends_nil
  rw [List.append_nil, ← String.toList_ofList (l := j.compactText)] at read
  exact Option.bind_eq_some_iff.mpr ⟨_, read, rfl⟩

theorem rereadItems_of_back {items read : List Json}
    (back : List.Forall₂ (fun item j => Format.compact.back? item = some j) items read) :
    rereadItems items = read := by
  induction back with
  | nil => rfl
  | cons first _ ih =>
    rw [parse?_compactText] at first
    rw [rereadItems, ih, Option.some_inj.mp first]

theorem rereadMembers_of_back {members read : List (String × Json)}
    (back : List.Forall₂ (fun m r => m.1 = r.1 ∧ Format.compact.back? m.2 = some r.2)
      members read) : rereadMembers members = read := by
  induction back with
  | nil => rfl
  | cons first _ ih =>
    obtain ⟨key, value⟩ := first
    rw [parse?_compactText] at value
    rw [rereadMembers, ih, Option.some_inj.mp value, key]

/-! ### Integers -/

theorem minus_split (cs : List Char) :
    ∃ before, cs = before ++ (minus cs).2 ∧ ∀ c ∈ before, c = '-' := by
  unfold minus
  split
  · exact ⟨['-'], rfl, by simp⟩
  · exact ⟨[], rfl, by simp⟩

theorem fraction?_none {cs rest : List Char} (read : fraction? cs = some (none, rest)) :
    cs = rest := by
  unfold fraction? at read
  split at read
  · obtain ⟨_, _, same⟩ := Option.map_eq_some_iff.mp read
    simp at same
  · simpa using read

theorem exponent?_none {cs rest : List Char} (read : exponent? cs = some (none, rest)) :
    cs = rest := by
  unfold exponent? at read
  split at read
  · simpa using read
  · split at read
    · obtain ⟨_, _, same⟩ := Option.map_eq_some_iff.mp read
      simp at same
    · simpa using read

theorem literal?_plain {cs rest : List Char} {l : Literal} (read : literal? cs = some (l, rest))
    (fraction : l.fraction = none) (exponent : l.exponent = none) :
    ∃ used, cs = used ++ rest ∧ ∀ c ∈ used, c = '-' ∨ c.isDigit := by
  obtain ⟨before, split, sign⟩ := minus_split cs
  simp only [literal?] at read
  obtain ⟨⟨whole, afterWhole⟩, wholeRead, read⟩ := Option.bind_eq_some_iff.mp read
  obtain ⟨-, -, read⟩ := Option.bind_eq_some_iff.mp read
  obtain ⟨⟨point, afterPoint⟩, pointRead, read⟩ := Option.bind_eq_some_iff.mp read
  obtain ⟨⟨letter, afterLetter⟩, letterRead, read⟩ := Option.bind_eq_some_iff.mp read
  obtain ⟨rfl, rfl⟩ := Prod.mk.inj (Option.some_inj.mp read)
  obtain rfl : point = none := fraction
  obtain rfl : letter = none := exponent
  obtain ⟨between, numeral⟩ := Condition.Grammar.whole?_sound wholeRead
  have behind : afterWhole = afterLetter :=
    (fraction?_none pointRead).trans (exponent?_none letterRead)
  refine ⟨before ++ whole, ?_, fun c mem => ?_⟩
  · rw [split, between, behind, List.append_assoc]
  · rcases List.mem_append.mp mem with mem | mem
    · exact .inl (sign c mem)
    · exact .inr (numeral_digits numeral c mem)

theorem tree_int {l : Literal} {n : Int} (value : l.tree = int n) :
    l.fraction = none ∧ l.exponent = none := by
  have integer : l.integer?.isSome := by
    unfold Literal.tree at value
    split at value
    · next read => simp [read]
    · split at value <;> contradiction
  unfold Literal.integer? at integer
  split at integer
  · contradiction
  · next plain => simpa using plain

theorem value?_int {fuel : Nat} {cs rest : List Char} {n : Int}
    (read : value? fuel cs = some (int n, rest)) :
    ∃ l, literal? (skipSpaces cs) = some (l, rest) ∧ l.tree = int n := by
  have noText (pieces : List Piece) : ofPieces pieces ≠ int n := by
    unfold ofPieces
    split <;> simp
  have noObject (members : List (List Piece × Json)) : ofMembers members ≠ int n := by
    unfold ofMembers
    split <;> simp
  cases fuel with
  | zero => contradiction
  | succ fuel =>
    rw [value?] at read
    split at read
    case h_4 =>
      obtain ⟨⟨pieces, _⟩, -, same⟩ := Option.map_eq_some_iff.mp read
      exact absurd (Prod.mk.inj same).1 (noText pieces)
    case h_5 =>
      split at read
      · simp at read
      · obtain ⟨⟨items, _⟩, -, same⟩ := Option.map_eq_some_iff.mp read
        simp at same
    case h_6 =>
      split at read
      · simp at read
      · obtain ⟨⟨members, _⟩, -, same⟩ := Option.map_eq_some_iff.mp read
        exact absurd (Prod.mk.inj same).1 (noObject members)
    case h_7 =>
      obtain ⟨⟨l, _⟩, literal, same⟩ := Option.map_eq_some_iff.mp read
      obtain ⟨value, rfl⟩ := Prod.mk.inj same
      exact ⟨l, literal, value⟩
    all_goals simp at read

theorem parse?_plain {text : String} {n : Int} (read : parse? text = some (int n)) :
    ¬ IsPointed text := by
  obtain ⟨⟨value, rest⟩, valueRead, read⟩ := Option.bind_eq_some_iff.mp read
  obtain ⟨_, blank, same⟩ := Option.bind_eq_some_iff.mp read
  obtain rfl : value = int n := Option.some_inj.mp same
  obtain ⟨l, literal, tree⟩ := value?_int valueRead
  obtain ⟨fraction, exponent⟩ := tree_int tree
  obtain ⟨used, split, digits⟩ := literal?_plain literal fraction exponent
  have split : text.toList = text.toList.takeWhile isSpace ++ (used ++ rest) := by
    rw [← split, skipSpaces, List.takeWhile_append_dropWhile]
  have spaces : ∀ c ∈ rest, isSpace c := by
    have empty : skipSpaces rest = [] := by simpa using (Option.guard_eq_some' _).mp blank
    exact List.dropWhile_eq_nil_iff.mp empty
  rintro ⟨c, mem, pointed⟩
  rw [split] at mem
  have apart : isSpace c = false ∧ c ≠ '-' ∧ c.isDigit = false := by
    rcases pointed with rfl | rfl | rfl <;> decide
  rcases List.mem_append.mp mem with mem | mem
  · exact absurd (Text.mem_takeWhile mem) (by simp [apart])
  rcases List.mem_append.mp mem with mem | mem
  · simpa [apart] using digits c mem
  · exact absurd (spaces c mem) (by simp [apart])

/-! ### Laws -/

namespace Format

theorem compact_faithful : compact.Faithful where
  bool b := parse?_compactText (.bool b)
  int n := by
    rw [parse?_compactText, reread, tree_ofInt]
    · exact n.le_toInt
    · exact Int.lt_trans n.toInt_lt (by decide)
  text s := parse?_compactText (.text s)
  pointed {x} finite := by
    match x, finite with
    | .finite negative m, _ =>
      obtain ⟨l, written, -, pointed, -⟩ := ofFloat?_finite negative m
      obtain ⟨c, mem, shown⟩ := Literal.pointed_text pointed
      refine ⟨c, ?_, ?_⟩
      · simpa [compact, compactText, floatText, written] using mem
      · tauto
  plain read := parse?_plain read
  array _ back := by
    rw [parse?_compactText, reread, rereadItems_of_back back]
  object _ _ back := ⟨_, .refl _, by rw [parse?_compactText, reread, rereadMembers_of_back back]⟩

/-- This reader rounds every literal to the nearest float, so it reads back every finite float. -/
theorem compact_keeps {x : Binary64} (finite : x.isFinite) : compact.Keeps x where
  finite := finite
  back := by
    match x, finite with
    | .finite negative m, _ =>
      obtain ⟨l, written, -, -, value⟩ := ofFloat?_finite negative m
      simp [parse?_compactText, reread, written, value, toFloat?]

end Format

/-! ## Sorted keys -/

theorem sortedItems_eq (items : List Json) : sortedItems items = items.map sorted := by
  induction items with
  | nil => rfl
  | cons item rest ih => rw [sortedItems, ih, List.map_cons]

theorem sortedMembers_eq (members : List (String × Json)) :
    sortedMembers members = members.map fun m => (m.1, m.2.sorted) := by
  induction members with
  | nil => rfl
  | cons member rest ih =>
    obtain ⟨key, value⟩ := member
    rw [sortedMembers, ih, List.map_cons]

theorem Nested.sorted {levels : Nat} {j : Json} (nested : j.Nested levels) :
    j.sorted.Nested levels := by
  induction levels generalizing j with
  | zero => cases j <;> simp_all [Nested, Json.sorted]
  | succ levels ih =>
    cases j with
    | array items =>
      rw [Json.sorted, sortedItems_eq]
      exact List.forall_mem_map.mpr fun item mem => ih (nested item mem)
    | object members =>
      rw [Json.sorted, sortedMembers_eq]
      intro m mem
      obtain ⟨original, own, rfl⟩ := List.mem_map.mp (NameMap.mem_of_mem_ofList mem)
      exact ih (nested original own)
    | _ => trivial

theorem Format.Keeps.sorted {F : Format} {x : Binary64} (keeps : F.Keeps x) : F.sorted.Keeps x where
  finite := keeps.finite
  back := keeps.back

theorem Format.Faithful.sorted {F : Format} (faithful : F.Faithful) : F.sorted.Faithful where
  bool := faithful.bool
  int := faithful.int
  text := faithful.text
  pointed := faithful.pointed
  plain := faithful.plain
  array {items read} nested back := by
    have inner := nested.sorted
    rw [Json.sorted, sortedItems_eq] at inner
    have array := faithful.array inner (List.forall₂_map_left_iff.mpr back)
    rwa [← sortedItems_eq, ← Json.sorted] at array
  object {members read} nested distinct back := by
    have inner := nested.sorted
    rw [Json.sorted, sortedMembers_eq] at inner
    generalize same : (members.map fun m => (m.1, m.2.sorted)) = written at inner
    have keys : written.map Prod.fst = members.map Prod.fst := by simp [← same]
    have perm : (NameMap.ofList written).entries.Perm written :=
      NameMap.entries_ofList_perm (List.pairwise_map.mp (keys ▸ distinct))
    have partsBack : List.Forall₂ (fun m r => m.1 = r.1 ∧ F.back? m.2 = some r.2) written read := by
      rw [← same]
      exact List.forall₂_map_left_iff.mpr back
    obtain ⟨arranged, arrangedBack, arrangedPerm⟩ := List.perm_comp_forall₂ perm partsBack
    have entriesDistinct : ((NameMap.ofList written).entries.map Prod.fst).Nodup :=
      (perm.map Prod.fst).nodup_iff.mpr (keys ▸ distinct)
    obtain ⟨order, orderPerm, object⟩ := faithful.object inner entriesDistinct arrangedBack
    refine ⟨order, orderPerm.trans arrangedPerm, ?_⟩
    rwa [← same, ← sortedMembers_eq, ← Json.sorted] at object

end Commission.Json
