import Commission.Expr.Parser

/-!
The grammar of calculations, stated apart from the reader. A text is related to the tree it stands
for and to its nesting, the most groups, calls and signs that are open at one place. What a sign
adds to the nesting is a parameter: the reader counts one level, the validator of rules none.

Blanks belong to the token behind them. Those after the last token belong to the calculation.
-/
namespace Commission.Expr.Grammar

def Blank (cs : List Char) : Prop := ∀ c ∈ cs, c = ' ' ∨ c = '\t' ∨ c = '\r' ∨ c = '\n'

def Digits (cs : List Char) : Prop := ∀ c ∈ cs, c.isDigit

/-- `digit+ ['.' digit*]` or `'.' digit+`. -/
inductive Number : List Char → Decimal → Prop where
  | whole {ds : List Char} (filled : ds ≠ []) (digits : Digits ds) : Number ds (.ofDigits ds [])
  | point {ds fs : List Char} (filled : ds ≠ []) (digits : Digits ds) (fraction : Digits fs) :
      Number (ds ++ '.' :: fs) (.ofDigits ds fs)
  | fraction {fs : List Char} (filled : fs ≠ []) (digits : Digits fs) :
      Number ('.' :: fs) (.ofDigits [] fs)

/-- Operators of one strength; a sum is a chain of products, a product one of signed operands. -/
inductive Strength where
  | product
  | sum
  deriving DecidableEq, Repr

inductive Strength.Symbol : Strength → Char → BinaryOp → Prop where
  | times : Symbol .product '*' .mul
  | over : Symbol .product '/' .div
  | plus : Symbol .sum '+' .add
  | minus : Symbol .sum '-' .sub

def grouped (first : Expr) (links : List (BinaryOp × Expr)) : Expr :=
  links.foldl (fun lhs link => binary link.1 lhs link.2) first

mutual

/-- `('-'|'+') U`, a number, a name, a group or a call. -/
inductive Signed (sign : Nat) : Nat → List Char → Expr → Prop where
  | minus {n : Nat} {blanks cs : List Char} {e : Expr} (blank : Blank blanks)
      (operand : Signed sign n cs e) : Signed sign (n + sign) (blanks ++ '-' :: cs) (negate e)
  | plus {n : Nat} {blanks cs : List Char} {e : Expr} (blank : Blank blanks)
      (operand : Signed sign n cs e) : Signed sign (n + sign) (blanks ++ '+' :: cs) e
  | number {blanks cs : List Char} {d : Decimal} (blank : Blank blanks) (digits : Number cs d) :
      Signed sign 0 (blanks ++ cs) (number (.ofDecimal false d))
  | variable {blanks name : List Char} (blank : Blank blanks)
      (named : Text.Identifier.isIdentifier name) :
      Signed sign 0 (blanks ++ name) (var (String.ofList name))
  | group {n : Nat} {blanks cs before : List Char} {e : Expr} (blank : Blank blanks)
      (inside : Chain sign .sum n cs e) (blank' : Blank before) :
      Signed sign (n + 1) (blanks ++ '(' :: (cs ++ (before ++ [')']))) e
  | call {n : Nat} {blanks name between cs before : List Char} {args : List Expr}
      (blank : Blank blanks) (named : Text.Identifier.isIdentifier name)
      (blank' : Blank between) (inside : Arguments sign n cs args) (blank'' : Blank before) :
      Signed sign (n + 1) (blanks ++ (name ++ (between ++ '(' :: (cs ++ (before ++ [')'])))))
        (call (String.ofList name) args)

inductive Operand (sign : Nat) : Strength → Nat → List Char → Expr → Prop where
  | ofSigned {n : Nat} {cs : List Char} {e : Expr} (operand : Signed sign n cs e) :
      Operand sign .product n cs e
  | ofProduct {n : Nat} {cs : List Char} {e : Expr} (operand : Chain sign .product n cs e) :
      Operand sign .sum n cs e

inductive Chain (sign : Nat) : Strength → Nat → List Char → Expr → Prop where
  | mk {strength : Strength} {n m : Nat} {cs ds : List Char} {e : Expr}
      {links : List (BinaryOp × Expr)} (first : Operand sign strength n cs e)
      (more : Links sign strength m ds links) :
      Chain sign strength (max n m) (cs ++ ds) (grouped e links)

inductive Links (sign : Nat) : Strength → Nat → List Char → List (BinaryOp × Expr) → Prop where
  | nil {strength : Strength} : Links sign strength 0 [] []
  | cons {strength : Strength} {n m : Nat} {blanks cs ds : List Char} {c : Char} {op : BinaryOp}
      {e : Expr} {links : List (BinaryOp × Expr)} (blank : Blank blanks)
      (symbol : strength.Symbol c op) (operand : Operand sign strength n cs e)
      (more : Links sign strength m ds links) :
      Links sign strength (max n m) (blanks ++ c :: (cs ++ ds)) ((op, e) :: links)

inductive Arguments (sign : Nat) : Nat → List Char → List Expr → Prop where
  | none : Arguments sign 0 [] []
  | some {n m : Nat} {cs ds : List Char} {e : Expr} {es : List Expr}
      (first : Chain sign .sum n cs e) (more : MoreArguments sign m ds es) :
      Arguments sign (max n m) (cs ++ ds) (e :: es)

inductive MoreArguments (sign : Nat) : Nat → List Char → List Expr → Prop where
  | nil : MoreArguments sign 0 [] []
  | cons {n m : Nat} {blanks cs ds : List Char} {e : Expr} {es : List Expr}
      (blank : Blank blanks) (argument : Chain sign .sum n cs e)
      (more : MoreArguments sign m ds es) :
      MoreArguments sign (max n m) (blanks ++ ',' :: (cs ++ ds)) (e :: es)

end

def Calculation (sign n : Nat) (text : List Char) (e : Expr) : Prop :=
  ∃ body blanks, text = body ++ blanks ∧ Chain sign .sum n body e ∧ Blank blanks

end Commission.Expr.Grammar
