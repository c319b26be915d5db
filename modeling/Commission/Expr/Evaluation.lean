import Commission.Context
import Commission.Expr.Parser
import Commission.Number.Arithmetic

/-!
Evaluation of calculations, in two phases. The first binds every variable and checks every call,
also in arguments that would never be evaluated. The second computes; every number on the way,
and the amount at the end, is finite.
-/
namespace Commission

inductive Operand where
  | number (x : Binary64)
  | bool (b : Bool)
  deriving DecidableEq, Repr

namespace Operand

def toNumber : Operand → Binary64
  | number x => x
  | bool b => Binary64.ofBool b

def holds : Operand → Bool
  | number x => !x.isZero && !x.isNaN
  | bool b => b

def finite (x : Binary64) : Except ExprError Operand :=
  if x.isFinite then .ok (number x) else .error (.nonFinite x)

end Operand

namespace Builtin

/-- Rounds to a number of decimal places from zero to fifteen, a half going away from zero. -/
def roundTo (x digits : Binary64) : Except ExprError Binary64 :=
  match digits.toNat? with
  | some n =>
    if n ≤ 15 then
      let factor := Binary64.ofInt (10 ^ n)
      .ok ((x.mul factor).round.div factor)
    else .error (.invalidArgument .round (.digitCount digits))
  | none => .error (.invalidArgument .round (.digitCount digits))

def compute (b : Builtin) (args : List Operand) : Except ExprError Operand :=
  match b, args with
  | abs, [x] => .ok (.number x.toNumber.abs)
  | ceil, [x] => .ok (.number x.toNumber.ceil)
  | floor, [x] => .ok (.number x.toNumber.floor)
  | round, [x] => .ok (.number x.toNumber.round)
  | round, [x, digits] => (roundTo x.toNumber digits.toNumber).map .number
  | min, first :: rest =>
    .ok (.number (rest.foldl (fun least x => least.min x.toNumber) first.toNumber))
  | max, first :: rest =>
    .ok (.number (rest.foldl (fun most x => most.max x.toNumber) first.toNumber))
  | pow, [x, y] => .ok (.number (x.toNumber.pow y.toNumber))
  | sqrt, [x] =>
    if x.toNumber.lt .zero then
      .error (.invalidArgument .sqrt (.negativeRoot x.toNumber))
    else .ok (.number x.toNumber.sqrt)
  | not, [x] => .ok (.bool !x.holds)
  | eq, [x, y] => .ok (.bool (x.toNumber.eq y.toNumber))
  | neq, [x, y] => .ok (.bool !(x.toNumber.eq y.toNumber))
  | gt, [x, y] => .ok (.bool (y.toNumber.lt x.toNumber))
  | lt, [x, y] => .ok (.bool (x.toNumber.lt y.toNumber))
  | gte, [x, y] => .ok (.bool (y.toNumber.le x.toNumber))
  | lte, [x, y] => .ok (.bool (x.toNumber.le y.toNumber))
  | b, args => .error (.arity b.name b.arity args.length)

def apply (b : Builtin) (args : List Operand) : Except ExprError Operand := do
  match ← b.compute args with
  | .number x => if x.isNaN then .error (.invalidArgument b .notANumber) else Operand.finite x
  | .bool c => .ok (.bool c)

end Builtin

abbrev Bindings : Type := List (String × Operand)

namespace Expr

def resolve (functions : FunctionTable) (ctx : Context) (name : String) :
    Except ExprError Operand :=
  match ctx.get? name with
  | some (.scalar (.bool b)) => .ok (.bool b)
  | some (.scalar (.int n)) => Operand.finite (Binary64.ofInt n.toInt)
  | some (.scalar (.float x)) => Operand.finite x
  | some (.scalar (.text _)) => .error (.nonNumericVariable name .string)
  | some (.list _) => .error (.nonNumericVariable name .list)
  | none =>
    if functions.contains name then .error (.functionAsValue name)
    else .error (.unknownVariable name)

def checkCall (functions : FunctionTable) (name : String) (count : Nat) : Except ExprError Unit :=
  match functions.get? name with
  | none => .error (.unknownFunction name)
  | some b => if b.arity.accepts count then .ok () else .error (.arity name b.arity count)

mutual

/-- The first phase. A call is checked before its arguments, and these from left to right. -/
def bind (functions : FunctionTable) (ctx : Context) : Expr → Except ExprError Bindings
  | number _ => .ok []
  | var name => do
    let value ← resolve functions ctx name
    return [(name, value)]
  | negate e => bind functions ctx e
  | binary _ lhs rhs => do
    let left ← bind functions ctx lhs
    let right ← bind functions ctx rhs
    return left ++ right
  | call name args => do
    checkCall functions name args.length
    bindAll functions ctx args

def bindAll (functions : FunctionTable) (ctx : Context) : List Expr → Except ExprError Bindings
  | [] => .ok []
  | e :: es => do
    let first ← bind functions ctx e
    let rest ← bindAll functions ctx es
    return first ++ rest

end

def arithmetic (op : BinaryOp) (x y : Binary64) : Except ExprError Operand :=
  match op with
  | .add => Operand.finite (x.add y)
  | .sub => Operand.finite (x.sub y)
  | .mul => Operand.finite (x.mul y)
  | .div => if y.isZero then .error .divisionByZero else Operand.finite (x.div y)

mutual

def eval (functions : FunctionTable) (vars : Bindings) : Expr → Except ExprError Operand
  | number x => Operand.finite x
  | var name =>
    match vars.lookup name with
    | some value => .ok value
    | none => .error (.unknownVariable name)
  | negate e => do
    let value ← eval functions vars e
    Operand.finite value.toNumber.neg
  | binary op lhs rhs => do
    let x ← eval functions vars lhs
    let y ← eval functions vars rhs
    arithmetic op x.toNumber y.toNumber
  | call name args =>
    match functions.get? name with
    | none => .error (.unknownFunction name)
    | some .ifElse => evalIf functions vars args
    | some .and => evalChoice functions vars .and false args
    | some .or => evalChoice functions vars .or true args
    | some b => do
      let values ← evalAll functions vars args
      b.apply values

def evalAll (functions : FunctionTable) (vars : Bindings) :
    List Expr → Except ExprError (List Operand)
  | [] => .ok []
  | e :: es => do
    let value ← eval functions vars e
    let values ← evalAll functions vars es
    return value :: values

def evalIf (functions : FunctionTable) (vars : Bindings) : List Expr → Except ExprError Operand
  | [cond, yes, no] => do
    let c ← eval functions vars cond
    if c.holds then eval functions vars yes else eval functions vars no
  | args => .error (.arity Builtin.ifElse.name Builtin.ifElse.arity args.length)

def evalChoice (functions : FunctionTable) (vars : Bindings) (b : Builtin) (settles : Bool) :
    List Expr → Except ExprError Operand
  | [lhs, rhs] => do
    let x ← eval functions vars lhs
    if x.holds = settles then return x else eval functions vars rhs
  | args => .error (.arity b.name b.arity args.length)

end

def amount (functions : FunctionTable) (ctx : Context) (e : Expr) : Except ExprError Binary64 := do
  let vars ← bind functions ctx e
  match ← eval functions vars e with
  | .number x => if x.isFinite then .ok x else .error (.nonFinite x)
  | .bool _ => .error .nonNumeric

def evaluate (functions : FunctionTable) (ctx : Context) (text : String) :
    Except ExprError Binary64 := do
  let e ← parse text
  amount functions ctx e

end Expr

end Commission
