import Commission.Proofs.Number.Numeral
import Commission.Text.Basic
import Commission.Text.Identifier
import Commission.Value

/-!
The grammar of values, stated apart from the reader: which texts stand for a number, a scalar, a
list, and what they stand for.
-/
namespace Commission.Condition.Grammar

def Gaps (cs : List Char) : Prop := ∀ c ∈ cs, Text.isGap c

/-! ## Quoted texts -/

inductive Escape : Char → List Char → Prop where
  | quote : Escape '"' ['"']
  | backslash : Escape '\\' ['\\']
  | feed : Escape 'n' ['\n']
  | tab : Escape 't' ['\t']
  | other {c : Char} (plain : c ≠ '"' ∧ c ≠ '\\' ∧ c ≠ 'n' ∧ c ≠ 't') : Escape c ['\\', c]

/-- What stands between two quotes, and the text it means. -/
inductive Content : List Char → List Char → Prop where
  | nil : Content [] []
  | plain {c : Char} {cs content : List Char} (unquoted : c ≠ '"') (unescaped : c ≠ '\\')
      (more : Content cs content) : Content (c :: cs) (c :: content)
  | escaped {c : Char} {meaning cs content : List Char} (escape : Escape c meaning)
      (more : Content cs content) : Content ('\\' :: c :: cs) (meaning ++ content)

/-! ## Numbers and words -/

inductive Sign : List Char → Bool → Prop where
  | none : Sign [] false
  | plus : Sign ['+'] false
  | minus : Sign ['-'] true

/-- `[+-] numeral` for an integer of 64 bits, `[+-] numeral '.' digit+` for a float. -/
inductive Number : List Char → Scalar → Prop where
  | integer {before digits : List Char} {negative : Bool} {n : Int64} (sign : Sign before negative)
      (numeral : Numeral digits)
      (value : n.toInt = Binary64.signed negative (Nat.ofDigitChars 10 digits 0)) :
      Number (before ++ digits) (.int n)
  | float {before whole fraction : List Char} {negative : Bool} (sign : Sign before negative)
      (numeral : Numeral whole) (filled : fraction ≠ []) (digits : ∀ c ∈ fraction, c.isDigit) :
      Number (before ++ (whole ++ '.' :: fraction))
        (.float (.ofDecimal negative (.ofDigits whole fraction)))

inductive Word : List Char → Scalar → Prop where
  | true : Word "true".toList (.bool true)
  | false : Word "false".toList (.bool false)
  | text {name : List Char} (named : Text.Identifier.isIdentifier name)
      (noTruth : name ≠ "true".toList ∧ name ≠ "false".toList) :
      Word name (.text (String.ofList name))

/-! ## Scalars and lists -/

inductive Item : List Char → Scalar → Prop where
  | quoted {cs content : List Char} (inside : Content cs content) :
      Item ('"' :: (cs ++ ['"'])) (.text (String.ofList content))
  | number {cs : List Char} {s : Scalar} (number : Number cs s) : Item cs s
  | word {cs : List Char} {s : Scalar} (word : Word cs s) : Item cs s

inductive MoreItems : List Char → List Scalar → Prop where
  | nil : MoreItems [] []
  | cons {before after cs more : List Char} {s : Scalar} {items : List Scalar}
      (gaps : Gaps before) (gaps' : Gaps after) (item : Item cs s)
      (later : MoreItems more items) :
      MoreItems (before ++ ',' :: (after ++ (cs ++ more))) (s :: items)

inductive Items : List Char → List Scalar → Prop where
  | none : Items [] []
  | some {cs more : List Char} {s : Scalar} {items : List Scalar} (first : Item cs s)
      (later : MoreItems more items) : Items (cs ++ more) (s :: items)

inductive Operand : List Char → Value → Prop where
  | scalar {cs : List Char} {s : Scalar} (item : Item cs s) : Operand cs (.scalar s)
  | list {before cs after : List Char} {items : List Scalar} (gaps : Gaps before)
      (inside : Items cs items) (gaps' : Gaps after) :
      Operand ('[' :: (before ++ (cs ++ (after ++ [']'])))) (.list items)

end Commission.Condition.Grammar
