import Commission.Proofs.Expr.Finiteness
import Commission.Proofs.Expr.Widening

/-!
Which kind of value a calculation can come to, told from its shape alone. Arithmetic and comparisons
take numbers and booleans alike, so only the outermost nodes matter: an operator or an eager
function fixes the kind of its results, a lazy one hands on the values of its arguments. Calculations
that may come to either kind have no kind here. Main statement: `kind_decides`.
-/
namespace Commission

namespace Operand

def kind : Operand → Kind
  | number _ => .number
  | bool _ => .boolean

theorem kind_of_finite {x : Binary64} {v : Operand} (checked : finite x = .ok v) :
    v.kind = .number := by
  obtain ⟨-, rfl⟩ := finite_eq_ok_iff.mp checked
  rfl

end Operand

namespace Builtin

def kind? : Builtin → Option Kind
  | abs | ceil | floor | round | min | max | pow | sqrt => some .number
  | not | eq | neq | gt | lt | gte | lte => some .boolean
  | and | or | ifElse => none

theorem isLazy_of_kind? {b : Builtin} {kind : Kind} (fixed : b.kind? = some kind) :
    b.isLazy = false := by
  cases b with
  | and | or | ifElse => contradiction
  | _ => rfl

theorem kind_of_compute {b : Builtin} {args : List Operand} {v : Operand}
    (computed : b.compute args = .ok v) : b.kind? = some v.kind := by
  unfold compute at computed
  split at computed
  -- One case for each function, but two for rounding, and one for a wrong number of arguments.
  case h_5 =>
    obtain ⟨x, -, rfl⟩ := map_eq_ok_iff.mp computed
    rfl
  case h_9 =>
    split at computed
    · contradiction
    · obtain rfl := Except.ok.inj computed
      rfl
  case h_17 => contradiction
  all_goals
    obtain rfl := Except.ok.inj computed
    rfl

theorem kind_of_apply {b : Builtin} {args : List Operand} {v : Operand}
    (applied : b.apply args = .ok v) : b.kind? = some v.kind := by
  obtain ⟨result, computed, checked⟩ := bind_eq_ok_iff.mp applied
  rw [kind_of_compute computed]
  cases result with
  | bool c =>
    obtain rfl := Except.ok.inj checked
    rfl
  | number x =>
    dsimp only at checked
    split at checked
    · contradiction
    · rw [Operand.kind_of_finite checked, Operand.kind]

end Builtin

def FunctionTable.Named (t : FunctionTable) : Prop := ∀ name b, t.get? name = some b → b.name = name

theorem FunctionTable.named_ofBuiltins (builtins : List Builtin) : (ofBuiltins builtins).Named := by
  intro name b known
  exact (get?_ofBuiltins_iff.mp known).2

namespace Expr

inductive HasKind (ctx : Context) : Kind → Expr → Prop where
  | number (x : Binary64) : HasKind ctx .number (number x)
  | var {name : String} {s : Scalar} (bound : ctx.get? name = some (.scalar s)) :
      HasKind ctx s.kind (var name)
  | negate (e : Expr) : HasKind ctx .number (negate e)
  | binary (op : BinaryOp) (lhs rhs : Expr) : HasKind ctx .number (binary op lhs rhs)
  | eager {b : Builtin} {kind : Kind} (fixed : b.kind? = some kind) (args : List Expr) :
      HasKind ctx kind (call b.name args)
  | lazy {b : Builtin} {kind : Kind} {args : List Expr} (lazily : b.isLazy)
      (each : ∀ e ∈ b.results args, HasKind ctx kind e) : HasKind ctx kind (call b.name args)

section Soundness
variable {functions : FunctionTable} {ctx : Context} {vars : Bindings}

theorem kind_of_arithmetic {op : BinaryOp} {x y : Binary64} {v : Operand}
    (computed : arithmetic op x y = .ok v) : v.kind = .number := by
  rw [arithmetic_eq] at computed
  split at computed
  · contradiction
  · exact Operand.kind_of_finite computed

theorem kind_of_resolve {name : String} {s : Scalar} (bound : ctx.get? name = some (.scalar s))
    {v : Operand} (resolved : resolve functions ctx name = .ok v) : v.kind = s.kind := by
  rw [resolve, bound] at resolved
  cases s with
  | int n => exact Operand.kind_of_finite resolved
  | float x => exact Operand.kind_of_finite resolved
  | bool b =>
    obtain rfl := Except.ok.inj resolved
    rfl
  | text s => contradiction

theorem known_of_eval (named : functions.Named) {b : Builtin} {args : List Expr} {v : Operand}
    (evaluated : eval functions vars (call b.name args) = .ok v) :
    functions.get? b.name = some b := by
  cases known : functions.get? b.name with
  | none =>
    rw [eval_unknown known] at evaluated
    contradiction
  | some c => rw [Builtin.name_injective (named b.name c known)]

theorem kind_of_eager {name : String} {b : Builtin} (known : functions.get? name = some b)
    {kind : Kind} (fixed : b.kind? = some kind) {args : List Expr} {v : Operand}
    (evaluated : eval functions vars (call name args) = .ok v) : v.kind = kind := by
  rw [eval_eager known (Builtin.isLazy_of_kind? fixed)] at evaluated
  obtain ⟨values, -, applied⟩ := bind_eq_ok_iff.mp evaluated
  rw [Builtin.kind_of_apply applied] at fixed
  exact Option.some.inj fixed

theorem kind_of_eval (named : functions.Named) {ns : List Expr}
    (all : Resolves functions ctx vars ns) {kind : Kind} {e : Expr} (shape : HasKind ctx kind e)
    (within : e.nodes ⊆ ns) {v : Operand} (evaluated : eval functions vars e = .ok v) :
    v.kind = kind := by
  induction shape generalizing v with
  | number x => exact Operand.kind_of_finite evaluated
  | @var name s bound =>
    obtain ⟨value, resolved, found⟩ := all.lookup (within (List.mem_singleton.mpr rfl))
    rw [eval, found] at evaluated
    obtain rfl := Except.ok.inj evaluated
    exact kind_of_resolve bound resolved
  | negate e =>
    obtain ⟨operand, -, checked⟩ := bind_eq_ok_iff.mp evaluated
    exact Operand.kind_of_finite checked
  | binary op lhs rhs =>
    obtain ⟨x, -, rest⟩ := bind_eq_ok_iff.mp evaluated
    obtain ⟨y, -, computed⟩ := bind_eq_ok_iff.mp rest
    exact kind_of_arithmetic computed
  | eager fixed args => exact kind_of_eager (known_of_eval named evaluated) fixed evaluated
  | @lazy b kind args lazily each ih =>
    obtain ⟨e, mem, same⟩ := result_of_lazy (known_of_eval named evaluated) lazily evaluated
    apply ih e mem _ same
    intro node inside
    exact within (mem_nodes_call (b.results_subset args mem) inside)

theorem kind_of_value (named : functions.Named) {kind : Kind} {e : Expr}
    (shape : HasKind ctx kind e) {v : Operand} (evaluated : value functions ctx e = .ok v) :
    v.kind = kind := by
  obtain ⟨vars, bound, computed⟩ := bind_eq_ok_iff.mp evaluated
  exact kind_of_eval named (resolves_bind bound) shape (List.Subset.refl _) computed

end Soundness

/-! ## Amounts -/

section Amounts
variable {functions : FunctionTable} {ctx : Context} {e : Expr}

theorem isFinite_of_value {v : Operand} (evaluated : value functions ctx e = .ok v) :
    v.toNumber.isFinite := by
  obtain ⟨vars, bound, computed⟩ := bind_eq_ok_iff.mp evaluated
  exact isFinite_of_eval (isFinite_of_bind bound) computed

theorem value_ne_nonNumeric : value functions ctx e ≠ .error .nonNumeric := by
  intro failed
  rcases bind_fails_iff.mp failed with refused | ⟨vars, bound, stopped⟩
  · obtain ⟨-, node, -, -, -, offends⟩ := (bind_eq_error_iff functions ctx).mp refused
    cases offends
  · exact ofComputing_of_bind bound _ stopped

theorem amount_of_number {x : Binary64} (evaluated : value functions ctx e = .ok (.number x)) :
    amount functions ctx e = .ok x := by
  have bounded : x.isFinite := isFinite_of_value evaluated
  rw [amount_eq_value, evaluated]
  simp [Bind.bind, Except.bind, bounded]

theorem amount_of_bool {b : Bool} (evaluated : value functions ctx e = .ok (.bool b)) :
    amount functions ctx e = .error .nonNumeric := by
  rw [amount_eq_value, evaluated]
  rfl

theorem amount_of_failed {err : ExprError} (failed : value functions ctx e = .error err) :
    amount functions ctx e = .error err := by
  rw [amount_eq_value, failed]
  rfl

theorem amount_eq_ok_iff {x : Binary64} :
    amount functions ctx e = .ok x ↔ value functions ctx e = .ok (.number x) := by
  refine ⟨fun paid => ?_, amount_of_number⟩
  cases evaluated : value functions ctx e with
  | error err =>
    rw [amount_of_failed evaluated] at paid
    contradiction
  | ok v =>
    cases v with
    | bool b =>
      rw [amount_of_bool evaluated] at paid
      contradiction
    | number y =>
      rw [amount_of_number evaluated] at paid
      obtain rfl := Except.ok.inj paid
      rfl

theorem amount_eq_nonNumeric_iff :
    amount functions ctx e = .error .nonNumeric ↔ ∃ b, value functions ctx e = .ok (.bool b) := by
  refine ⟨fun refused => ?_, fun ⟨b, evaluated⟩ => amount_of_bool evaluated⟩
  cases evaluated : value functions ctx e with
  | error err =>
    rw [amount_of_failed evaluated] at refused
    obtain rfl := Except.error.inj refused
    exact absurd evaluated value_ne_nonNumeric
  | ok v =>
    cases v with
    | bool b => exact ⟨b, rfl⟩
    | number x =>
      rw [amount_of_number evaluated] at refused
      contradiction

theorem number_never_refused (named : functions.Named) (shape : HasKind ctx .number e) :
    amount functions ctx e ≠ .error .nonNumeric := by
  intro refused
  obtain ⟨b, evaluated⟩ := amount_eq_nonNumeric_iff.mp refused
  have kind := kind_of_value named shape evaluated
  contradiction

theorem boolean_never_paid (named : functions.Named) (shape : HasKind ctx .boolean e)
    (x : Binary64) : amount functions ctx e ≠ .ok x := by
  intro paid
  have kind := kind_of_value named shape (amount_eq_ok_iff.mp paid)
  contradiction

theorem evaluate_of_parse {text : String} (read : parse text = .ok e) :
    evaluate functions ctx text = amount functions ctx e := by
  rw [evaluate, read]
  rfl

end Amounts

/-- A calculation with the shape of a number is never refused as a truth value, and whatever it
    comes to is its amount. One with the shape of a truth value never has an amount, and whatever it
    comes to is refused. -/
theorem kind_decides (builtins : List Builtin) (ctx : Context) :
    (∀ e, HasKind ctx .number e →
      amount (.ofBuiltins builtins) ctx e ≠ .error .nonNumeric ∧
      ∀ v, value (.ofBuiltins builtins) ctx e = .ok v →
        amount (.ofBuiltins builtins) ctx e = .ok v.toNumber) ∧
    (∀ e, HasKind ctx .boolean e →
      (∀ x, amount (.ofBuiltins builtins) ctx e ≠ .ok x) ∧
      ∀ v, value (.ofBuiltins builtins) ctx e = .ok v →
        amount (.ofBuiltins builtins) ctx e = .error .nonNumeric) ∧
    ∀ text e, parse text = .ok e →
      (HasKind ctx .number e → evaluate (.ofBuiltins builtins) ctx text ≠ .error .nonNumeric) ∧
      (HasKind ctx .boolean e → ∀ x, evaluate (.ofBuiltins builtins) ctx text ≠ .ok x) := by
  have named := FunctionTable.named_ofBuiltins builtins
  refine ⟨fun e shape => ⟨number_never_refused named shape, ?_⟩,
    fun e shape => ⟨boolean_never_paid named shape, ?_⟩, ?_⟩
  · intro v evaluated
    cases v with
    | number x => exact amount_of_number evaluated
    | bool b => exact absurd (kind_of_value named shape evaluated) nofun
  · intro v evaluated
    cases v with
    | bool b => exact amount_of_bool evaluated
    | number x => exact absurd (kind_of_value named shape evaluated) nofun
  · intro text e read
    rw [evaluate_of_parse read]
    exact ⟨number_never_refused named, boolean_never_paid named⟩

def renewalContext : Context :=
  .ofList [("renewal", .scalar (.bool true)), ("quota", .scalar (.int 5))]

/-- A truth value decides, but only numbers are handed on. -/
def bonus : Expr := call "if" [var "renewal", call "or" [var "quota", negate (var "renewal")],
  var "quota"]

def eligible : Expr := call "and" [var "renewal", call "gt" [var "quota", var "renewal"]]

theorem kind_decides_renewal :
    HasKind renewalContext .number bonus ∧
    amount .standard renewalContext bonus = .ok (Binary64.ofInt 5) ∧
    HasKind renewalContext .boolean eligible ∧
    amount .standard renewalContext eligible = .error .nonNumeric ∧
    parse "and(renewal, gt(quota, renewal))" = .ok eligible ∧
    ∀ x, evaluate .standard renewalContext "and(renewal, gt(quota, renewal))" ≠ .ok x := by
  have quota : HasKind renewalContext .number (var "quota") := .var (s := .int 5) (by decide)
  have renewal : HasKind renewalContext .boolean (var "renewal") :=
    .var (s := .bool true) (by decide)
  have either : HasKind renewalContext .number (call "or" [var "quota", negate (var "renewal")]) := by
    apply HasKind.lazy (b := .or) rfl
    simpa [Builtin.results] using ⟨quota, HasKind.negate _⟩
  have paid : HasKind renewalContext .number bonus := by
    apply HasKind.lazy (b := .ifElse) rfl
    simpa [Builtin.results] using ⟨either, quota⟩
  have refused : HasKind renewalContext .boolean eligible := by
    apply HasKind.lazy (b := .and) rfl
    simpa [Builtin.results] using ⟨renewal, HasKind.eager (b := .gt) rfl _⟩
  have five : value .standard renewalContext bonus = .ok (.number (Binary64.ofInt 5)) := by
    apply toOption_eq_some_iff.mp
    decide +kernel
  have holds : value .standard renewalContext eligible = .ok (.bool true) := by
    apply toOption_eq_some_iff.mp
    decide +kernel
  have read : parse "and(renewal, gt(quota, renewal))" = .ok eligible := rfl
  have laws := kind_decides Builtin.all renewalContext
  exact ⟨paid, (laws.1 bonus paid).2 (.number (Binary64.ofInt 5)) five, refused,
    (laws.2.1 eligible refused).2 _ holds, read, (laws.2.2 _ eligible read).2 refused⟩

end Expr
end Commission
