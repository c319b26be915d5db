import Commission.Expr.Basic
import Commission.Text.Basic
import Commission.Text.Identifier

/-!
Reading a calculation. Products bind tighter than sums, signs tighter than products, and chains
of operators associate to the left. Where an operand may be missing the reader declines and
leaves the choice to its caller; after a sign, an operator or an opening group it must go on, so
a missing operand is final there.

An operand is read with the number of levels that may still open in it; groups, calls and signs
open one.
-/
namespace Commission

inductive Reply (α : Type) where
  | done (value : α) (rest : List Char)
  | declined (wanted : List Wanted) (rest : List Char)
  | failed (wanted : List Wanted) (rest : List Char)
  deriving Repr

namespace Reply

/-- Makes a refusal final. -/
def insist {α : Type} : Reply α → Reply α
  | declined wanted rest => failed wanted rest
  | reply => reply

def wanting {α : Type} (w : Wanted) : Reply α → Reply α
  | declined wanted rest => declined (wanted ++ [w]) rest
  | failed wanted rest => failed (wanted ++ [w]) rest
  | reply => reply

def andThen {α β : Type} (reply : Reply α) (next : α → List Char → Reply β) : Reply β :=
  match reply with
  | done value rest => next value rest
  | declined wanted rest => declined wanted rest
  | failed wanted rest => failed wanted rest

def map {α β : Type} (f : α → β) (reply : Reply α) : Reply β :=
  reply.andThen fun value rest => done (f value) rest

end Reply

namespace Expr

abbrev Reader (α : Type) : Type := List Char → Reply α

def isSpace (c : Char) : Bool := c == ' ' || c == '\t' || c == '\r' || c == '\n'

def skipSpaces (cs : List Char) : List Char := cs.dropWhile isSpace

/-- Digits with an optional point and fraction, or a point and digits. -/
def number? (cs : List Char) : Option (Decimal × List Char) :=
  let whole := cs.takeWhile Char.isDigit
  match cs.dropWhile Char.isDigit with
  | '.' :: rest =>
    let fraction := rest.takeWhile Char.isDigit
    if whole.isEmpty && fraction.isEmpty then none
    else some (.ofDigits whole fraction, rest.dropWhile Char.isDigit)
  | rest => if whole.isEmpty then none else some (.ofDigits whole [], rest)

def closing {α : Type} (value : α) (cs : List Char) : Reply α :=
  match skipSpaces cs with
  | ')' :: rest => .done value rest
  | rest => .failed [] rest

/-- Arguments after the first one. A comma without an argument after it is left unread. A comma
    stands before each argument, so the length of the text is fuel enough. -/
def moreArguments (expr : Reader Expr) : Nat → List Expr → Reader (List Expr)
  | 0, args, cs => .done args cs
  | fuel + 1, args, cs =>
    match skipSpaces cs with
    | ',' :: rest =>
      match expr rest with
      | .done arg rest => moreArguments expr fuel (args ++ [arg]) rest
      | .declined .. => .done args cs
      | .failed wanted rest => .failed wanted rest
    | _ => .done args cs

def arguments (expr : Reader Expr) (cs : List Char) : Reply (List Expr) :=
  match expr cs with
  | .done arg rest => moreArguments expr rest.length [arg] rest
  | .declined .. => .done [] cs
  | .failed wanted rest => .failed wanted rest

def callOrVariable (expr : Reader Expr) (cs : List Char) : Reply Expr :=
  match Text.Identifier.read? cs with
  | none => .declined [] cs
  | some (name, rest) =>
    match skipSpaces rest with
    | '(' :: inside =>
      (arguments expr inside).andThen fun args rest =>
        (closing (Expr.call (String.ofList name) args) rest).wanting .closing
    | _ => .done (.var (String.ofList name)) rest

def unsigned (expr : Reader Expr) (cs : List Char) : Reply Expr :=
  match number? cs with
  | some (d, rest) => .done (.number (.ofDecimal false d)) rest
  | none =>
    match cs with
    | '(' :: inside => (expr inside).insist.andThen closing
    | cs => callOrVariable expr cs

def primary (expr : Reader Expr) (cs : List Char) : Reply Expr :=
  (unsigned expr (skipSpaces cs)).wanting .operand

def sumOp? : Char → Option BinaryOp
  | '+' => some .add
  | '-' => some .sub
  | _ => none

def productOp? : Char → Option BinaryOp
  | '*' => some .mul
  | '/' => some .div
  | _ => none

/-- Operators and operands after the first operand. Each round takes an operator, so the length
    of the text is fuel enough. -/
def chainTail (op? : Char → Option BinaryOp) (operand : Reader Expr) : Nat → Expr → Reader Expr
  | 0, lhs, cs => .done lhs cs
  | fuel + 1, lhs, cs =>
    match skipSpaces cs with
    | [] => .done lhs cs
    | c :: rest =>
      match op? c with
      | none => .done lhs cs
      | some op =>
        (operand rest).insist.andThen fun rhs rest =>
          chainTail op? operand fuel (binary op lhs rhs) rest

def chain (op? : Char → Option BinaryOp) (operand : Reader Expr) (cs : List Char) : Reply Expr :=
  (operand cs).andThen fun lhs rest => chainTail op? operand rest.length lhs rest

def sum (signed : Reader Expr) : Reader Expr := chain sumOp? (chain productOp? signed)

/-- An operand with its signs, in which `levels - 1` more levels may open. -/
def signed : Nat → Reader Expr
  | 0, cs => .failed [.shallower] cs
  | levels + 1, cs =>
    let cs := skipSpaces cs
    match cs with
    | '-' :: rest => (signed levels rest).insist.map negate
    | '+' :: rest => (signed levels rest).insist
    | cs => primary (sum (signed levels)) cs

/-- Reads a whole calculation. Offsets of errors count bytes. -/
def parse (text : String) : Except ExprError Expr :=
  let cs := text.toList
  let bytes := Text.byteCount cs
  if maxCalculationBytes < bytes then .error (.tooLong bytes)
  else
    match sum (signed (maxNesting + 1)) cs with
    | .done e rest =>
      match skipSpaces rest with
      | [] => .ok e
      | rest => .error (.malformed (bytes - Text.byteCount rest) [])
    | .declined wanted rest | .failed wanted rest =>
      .error (.malformed (bytes - Text.byteCount rest) wanted)

end Expr

end Commission
