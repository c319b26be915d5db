/-!
Comparison operators of conditions, in the order in which they are tried when a line is read: a
symbol of two characters stands before its first character alone.
-/
namespace Commission

inductive Operator where
  | ge
  | le
  | eq
  | ne
  | gt
  | lt
  | isIn
  deriving DecidableEq, Repr

namespace Operator

def all : List Operator := [ge, le, eq, ne, gt, lt, isIn]

def symbol : Operator → String
  | ge => ">="
  | le => "<="
  | eq => "=="
  | ne => "!="
  | gt => ">"
  | lt => "<"
  | isIn => "in"

def ofSymbol? (symbol : String) : Option Operator := all.find? (fun op => op.symbol == symbol)

theorem ofSymbol?_symbol (op : Operator) : ofSymbol? op.symbol = some op := by cases op <;> decide

end Operator

end Commission
