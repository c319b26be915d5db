import Commission.NameMap

/-!
The functions a calculation may call, how many arguments each takes, and tables of them.
-/
namespace Commission

/-- At least `least` arguments and, if there is a limit, at most `most`. -/
structure Arity where
  least : Nat
  most : Option Nat
  deriving DecidableEq, Repr

namespace Arity

def exactly (n : Nat) : Arity := ⟨n, some n⟩

def accepts (a : Arity) (count : Nat) : Bool := a.least ≤ count && a.most.all (count ≤ ·)

def text (a : Arity) : String :=
  let least := a.least
  match a.most with
  | none => s!"at least {least}"
  | some most => if most = least then s!"{most}" else s!"{least} to {most}"

end Arity

inductive Builtin where
  | abs
  | ceil
  | floor
  | round
  | min
  | max
  | pow
  | sqrt
  | and
  | or
  | not
  | eq
  | neq
  | gt
  | lt
  | gte
  | lte
  | ifElse
  deriving DecidableEq, Repr

namespace Builtin

def all : List Builtin :=
  [abs, ceil, floor, round, min, max, pow, sqrt, and, or, not, eq, neq, gt, lt, gte, lte, ifElse]

def name : Builtin → String
  | abs => "abs"
  | ceil => "ceil"
  | floor => "floor"
  | round => "round"
  | min => "min"
  | max => "max"
  | pow => "pow"
  | sqrt => "sqrt"
  | and => "and"
  | or => "or"
  | not => "not"
  | eq => "eq"
  | neq => "neq"
  | gt => "gt"
  | lt => "lt"
  | gte => "gte"
  | lte => "lte"
  | ifElse => "if"

def arity : Builtin → Arity
  | abs | ceil | floor | sqrt | not => .exactly 1
  | round => ⟨1, some 2⟩
  | min | max => ⟨1, none⟩
  | pow | and | or | eq | neq | gt | lt | gte | lte => .exactly 2
  | ifElse => .exactly 3

/-- Whether the function chooses which of its arguments are evaluated. -/
def isLazy : Builtin → Bool
  | and | or | ifElse => true
  | _ => false

def ofName? (name : String) : Option Builtin := all.find? (fun b => b.name == name)

theorem ofName?_name (b : Builtin) : ofName? b.name = some b := by cases b <;> decide

theorem name_injective {a b : Builtin} (h : a.name = b.name) : a = b := by
  simpa [ofName?_name] using congrArg ofName? h

end Builtin

structure FunctionTable where
  byName : NameMap Builtin

namespace FunctionTable

def ofBuiltins (builtins : List Builtin) : FunctionTable :=
  ⟨.ofList (builtins.map fun b => (b.name, b))⟩

def standard : FunctionTable := ofBuiltins Builtin.all

def get? (t : FunctionTable) (name : String) : Option Builtin := t.byName.get? name

def contains (t : FunctionTable) (name : String) : Bool := t.byName.contains name

def names (t : FunctionTable) : List String := t.byName.names

end FunctionTable

end Commission
