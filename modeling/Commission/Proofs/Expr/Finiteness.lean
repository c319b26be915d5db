import Commission.Proofs.Expr.Visits

/-!
No infinity and no NaN takes part in a computation. What a calculation visits has finite values and
is applied to finite numbers; a literal, a variable or a result that is not finite ends it with an
error. Main statement: `numbers_stay_finite`.
-/
namespace Commission

def ExprError.OfOverflow : ExprError → Prop
  | .nonFinite _ | .invalidArgument _ .notANumber => True
  | _ => False

theorem Binary64.isFinite_ofBool (b : Bool) : (ofBool b).isFinite := by
  cases b with
  | false => rfl
  | true => simpa [ofBool] using isFinite_ofInt 1

/-! ## Single steps -/

namespace Operand

theorem finite_eq_ok_iff {x : Binary64} {v : Operand} :
    finite x = .ok v ↔ x.isFinite ∧ number x = v := by
  unfold finite
  split <;> simp_all

theorem finite_eq_error_iff {x : Binary64} {err : ExprError} :
    finite x = .error err ↔ x.isFinite = false ∧ .nonFinite x = err := by
  rw [← failure?_eq_some_iff, Expr.failure?_finite_iff]

theorem isFinite_of_finite {x : Binary64} {v : Operand} (checked : finite x = .ok v) :
    v.toNumber.isFinite := by
  obtain ⟨bounded, rfl⟩ := finite_eq_ok_iff.mp checked
  exact bounded

end Operand

namespace Builtin

theorem isFinite_of_apply {b : Builtin} {args : List Operand} {v : Operand}
    (applied : b.apply args = .ok v) : v.toNumber.isFinite := by
  obtain ⟨result, -, checked⟩ := bind_eq_ok_iff.mp applied
  cases result with
  | bool c =>
    obtain rfl := Except.ok.inj checked
    exact Binary64.isFinite_ofBool c
  | number x =>
    dsimp only at checked
    split at checked
    · contradiction
    · exact Operand.isFinite_of_finite checked

theorem apply_number {b : Builtin} {args : List Operand} {x : Binary64}
    (computed : b.compute args = .ok (.number x)) :
    b.apply args =
      if x.isNaN then .error (.invalidArgument b .notANumber) else Operand.finite x := by
  rw [apply, computed]
  rfl

theorem failsWith_compute_arguments (b : Builtin) (args : List Operand) :
    FailsWith (fun err => ¬ err.OfOverflow) (b.compute args) := by
  unfold compute
  split
  -- Left are rounding to a number of digits, roots, and a wrong number of arguments.
  all_goals try exact failsWith_ok _
  · apply failsWith_map
    unfold roundTo
    split
    · split
      · exact failsWith_ok _
      · exact failsWith_error id
    · exact failsWith_error id
  · split
    · exact failsWith_error id
    · exact failsWith_ok _
  · exact failsWith_error id

end Builtin

def BinaryOp.compute : BinaryOp → Binary64 → Binary64 → Binary64
  | add => Binary64.add
  | sub => Binary64.sub
  | mul => Binary64.mul
  | div => Binary64.div

namespace Expr

theorem arithmetic_eq (op : BinaryOp) (x y : Binary64) :
    arithmetic op x y =
      if op = .div ∧ y.isZero then .error .divisionByZero else Operand.finite (op.compute x y) := by
  cases op with
  | div => simp [arithmetic, BinaryOp.compute]
  | _ => rfl

theorem isFinite_of_arithmetic {op : BinaryOp} {x y : Binary64} {v : Operand}
    (computed : arithmetic op x y = .ok v) : v.toNumber.isFinite := by
  rw [arithmetic_eq] at computed
  split at computed
  · contradiction
  · exact Operand.isFinite_of_finite computed

theorem isFinite_of_resolve {functions : FunctionTable} {ctx : Context} {name : String}
    {v : Operand} (resolved : resolve functions ctx name = .ok v) : v.toNumber.isFinite := by
  unfold resolve at resolved
  split at resolved
  · next b _ =>
    obtain rfl := Except.ok.inj resolved
    exact Binary64.isFinite_ofBool b
  · exact Operand.isFinite_of_finite resolved
  · exact Operand.isFinite_of_finite resolved
  · contradiction
  · contradiction
  · split at resolved
    · contradiction
    · contradiction

section Evaluation
variable {functions : FunctionTable} {vars : Bindings}

/-! ## Values -/

theorem isFinite_of_eval (bounded : ∀ p ∈ vars, p.2.toNumber.isFinite) {e : Expr} {v : Operand}
    (evaluated : eval functions vars e = .ok v) : v.toNumber.isFinite := by
  induction e generalizing v with
  | number x => exact Operand.isFinite_of_finite evaluated
  | var name =>
    unfold eval at evaluated
    split at evaluated
    · next value found =>
      obtain rfl := Except.ok.inj evaluated
      obtain ⟨before, after, split, -⟩ := List.lookup_eq_some_iff.mp found
      exact bounded (name, value) (by simp [split])
    · contradiction
  | negate e ih =>
    obtain ⟨operand, -, checked⟩ := bind_eq_ok_iff.mp evaluated
    exact Operand.isFinite_of_finite checked
  | binary op lhs rhs left right =>
    obtain ⟨x, -, rest⟩ := bind_eq_ok_iff.mp evaluated
    obtain ⟨y, -, computed⟩ := bind_eq_ok_iff.mp rest
    exact isFinite_of_arithmetic computed
  | call name args each =>
    cases known : functions.get? name with
    | none =>
      rw [eval_unknown known] at evaluated
      contradiction
    | some b =>
      cases lazily : b.isLazy with
      | false =>
        rw [eval_eager known lazily] at evaluated
        obtain ⟨values, -, applied⟩ := bind_eq_ok_iff.mp evaluated
        exact Builtin.isFinite_of_apply applied
      | true =>
        -- Nothing is checked here: the value was one of the arguments before.
        obtain ⟨e, mem, same⟩ := argument_of_lazy known lazily evaluated
        exact each e mem same

variable (functions vars)

/-- The operands that the operator or function of a node is applied to. A lazy function is applied
    to the argument by which it chooses. -/
inductive Applies : Expr → List Operand → Prop where
  | negation {e : Expr} {v : Operand} (operand : eval functions vars e = .ok v) :
      Applies (negate e) [v]
  | operation {op : BinaryOp} {lhs rhs : Expr} {x y : Operand}
      (left : eval functions vars lhs = .ok x) (right : eval functions vars rhs = .ok y) :
      Applies (binary op lhs rhs) [x, y]
  | function {name : String} {b : Builtin} {args : List Expr} {values : List Operand}
      (known : functions.get? name = some b) (eager : b.isLazy = false)
      (operands : evalAll functions vars args = .ok values) : Applies (call name args) values
  | selection {name : String} {b : Builtin} {first : Expr} {rest : List Expr} {c : Operand}
      (known : functions.get? name = some b) (lazily : b.isLazy)
      (settled : eval functions vars first = .ok c) : Applies (call name (first :: rest)) [c]

inductive Overflows : Expr → ExprError → Prop where
  | literal {x : Binary64} (large : x.isFinite = false) : Overflows (number x) (.nonFinite x)
  | negation {e : Expr} {v : Operand} (operand : eval functions vars e = .ok v)
      (large : v.toNumber.neg.isFinite = false) : Overflows (negate e) (.nonFinite v.toNumber.neg)
  | operation {op : BinaryOp} {lhs rhs : Expr} {x y : Operand}
      (left : eval functions vars lhs = .ok x) (right : eval functions vars rhs = .ok y)
      (defined : ¬ (op = .div ∧ y.toNumber.isZero))
      (large : (op.compute x.toNumber y.toNumber).isFinite = false) :
      Overflows (binary op lhs rhs) (.nonFinite (op.compute x.toNumber y.toNumber))
  | infinite {name : String} {b : Builtin} {args : List Expr} {values : List Operand}
      {x : Binary64} (known : functions.get? name = some b) (eager : b.isLazy = false)
      (operands : evalAll functions vars args = .ok values)
      (computed : b.compute values = .ok (.number x)) (number : x.isNaN = false)
      (large : x.isFinite = false) : Overflows (call name args) (.nonFinite x)
  | notANumber {name : String} {b : Builtin} {args : List Expr} {values : List Operand}
      {x : Binary64} (known : functions.get? name = some b) (eager : b.isLazy = false)
      (operands : evalAll functions vars args = .ok values)
      (computed : b.compute values = .ok (.number x)) (notANumber : x.isNaN) :
      Overflows (call name args) (.invalidArgument b .notANumber)

variable {functions vars}

theorem isFinite_of_evalAll (bounded : ∀ p ∈ vars, p.2.toNumber.isFinite) {args : List Expr}
    {values : List Operand} (operands : evalAll functions vars args = .ok values) :
    ∀ v ∈ values, v.toNumber.isFinite := by
  rw [evalAll_eq_mapM] at operands
  intro v mem
  obtain ⟨e, -, evaluated⟩ := exists_of_mem_mapM operands v mem
  exact isFinite_of_eval bounded evaluated

theorem isFinite_of_applies (bounded : ∀ p ∈ vars, p.2.toNumber.isFinite) {d : Expr}
    {operands : List Operand} (applied : Applies functions vars d operands) :
    ∀ v ∈ operands, v.toNumber.isFinite := by
  cases applied with
  | negation operand => simpa using isFinite_of_eval bounded operand
  | operation left right =>
    simpa using ⟨isFinite_of_eval bounded left, isFinite_of_eval bounded right⟩
  | function _ _ operands => exact isFinite_of_evalAll bounded operands
  | selection _ _ settled => simpa using isFinite_of_eval bounded settled

/-! ## Overflows -/

theorem raises_of_overflows {d : Expr} {err : ExprError}
    (overflows : Overflows functions vars d err) : Raises functions vars d err := by
  cases overflows with
  | literal large => exact .number (Operand.finite_eq_error_iff.mpr ⟨large, rfl⟩)
  | negation operand large => exact .negation operand (Operand.finite_eq_error_iff.mpr ⟨large, rfl⟩)
  | operation left right defined large =>
    apply Raises.operation left right
    rw [arithmetic_eq, if_neg defined]
    exact Operand.finite_eq_error_iff.mpr ⟨large, rfl⟩
  | infinite known eager operands computed number large =>
    apply Raises.function known eager operands
    rw [Builtin.apply_number computed, if_neg (by simp [number])]
    exact Operand.finite_eq_error_iff.mpr ⟨large, rfl⟩
  | notANumber known eager operands computed notANumber =>
    apply Raises.function known eager operands
    rw [Builtin.apply_number computed, if_pos notANumber]

theorem overflows_of_raises {d : Expr} {err : ExprError} (raises : Raises functions vars d err)
    (kind : err.OfOverflow) : Overflows functions vars d err := by
  cases raises with
  | number failed =>
    obtain ⟨large, rfl⟩ := Operand.finite_eq_error_iff.mp failed
    exact .literal large
  | negation operand failed =>
    obtain ⟨large, rfl⟩ := Operand.finite_eq_error_iff.mp failed
    exact .negation operand large
  | operation left right failed =>
    rw [arithmetic_eq] at failed
    split at failed
    · obtain rfl := Except.error.inj failed
      contradiction
    · next defined =>
      obtain ⟨large, rfl⟩ := Operand.finite_eq_error_iff.mp failed
      exact .operation left right defined large
  | @function name b args values err known eager operands failed =>
    cases computed : b.compute values with
    | error inner =>
      rw [Builtin.apply, computed] at failed
      obtain rfl := Except.error.inj failed
      exact absurd kind (Builtin.failsWith_compute_arguments b values _ computed)
    | ok result =>
      cases result with
      | bool c =>
        rw [Builtin.apply, computed] at failed
        contradiction
      | number x =>
        rw [Builtin.apply_number computed] at failed
        split at failed
        · next notANumber =>
          obtain rfl := Except.error.inj failed
          exact .notANumber known eager operands computed notANumber
        · next number =>
          obtain ⟨large, rfl⟩ := Operand.finite_eq_error_iff.mp failed
          exact .infinite known eager operands computed (by simpa using number) large
  | unbound _ | unknown _ | misfit _ _ _ => contradiction

theorem ofOverflow_of_overflows {d : Expr} {err : ExprError}
    (overflows : Overflows functions vars d err) : err.OfOverflow := by
  cases overflows <;> trivial

theorem eval_overflows_iff {e : Expr} {err : ExprError} (kind : err.OfOverflow) :
    eval functions vars e = .error err ↔
      ∃ d, Visits functions vars e d ∧ Overflows functions vars d err := by
  rw [eval_eq_error_iff]
  constructor
  · rintro ⟨d, visits, raises⟩
    exact ⟨d, visits, overflows_of_raises raises kind⟩
  · rintro ⟨d, visits, overflows⟩
    exact ⟨d, visits, raises_of_overflows overflows⟩

end Evaluation

/-! ## Amounts -/

section Amounts
variable {functions : FunctionTable} {ctx : Context} {e : Expr}

theorem isFinite_of_bind {vars : Bindings} (bound : bind functions ctx e = .ok vars) :
    ∀ p ∈ vars, p.2.toNumber.isFinite := by
  intro p mem
  exact isFinite_of_resolve ((resolves_bind bound).resolved p mem)

/-- The check of the amount itself never finds a number that is not finite. -/
theorem amount_overflows_iff {vars : Bindings} (bound : bind functions ctx e = .ok vars)
    {err : ExprError} (kind : err.OfOverflow) :
    amount functions ctx e = .error err ↔ eval functions vars e = .error err := by
  rw [amount_eq_value, value_of_bind bound]
  constructor
  · intro failed
    rcases bind_fails_iff.mp failed with inner | ⟨v, evaluated, own⟩
    · exact inner
    · cases v with
      | bool b =>
        obtain rfl := Except.error.inj own
        contradiction
      | number x =>
        have bounded : x.isFinite := isFinite_of_eval (isFinite_of_bind bound) evaluated
        simp [bounded] at own
  · intro failed
    rw [failed]
    rfl

theorem amount_of_variable {before after : List Expr} {name : String} {x : Binary64}
    (split : e.nodes = before ++ var name :: after)
    (entry : ctx.get? name = some (.scalar (.float x))) (large : x.isFinite = false) :
    (∃ err, amount functions ctx e = .error err) ∧
    ((∀ n ∈ before, ∀ err, ¬ Offends functions ctx n err) →
      amount functions ctx e = .error (.nonFinite x)) := by
  have offends : Offends functions ctx (var name) (.nonFinite x) := .nonFinite entry large
  constructor
  · cases bound : bind functions ctx e with
    | error err => exact ⟨err, amount_of_refused bound⟩
    | ok vars => exact absurd offends (not_offends_of_bind functions ctx bound (by simp [split]) _)
  · intro sound
    apply amount_of_refused
    exact (bind_eq_error_iff functions ctx).mpr ⟨before, var name, after, split, sound, offends⟩

end Amounts

/-- Whatever evaluation visits has a finite value, if a number, and is applied to finite numbers. It
    ends with the error for a literal or result that is not finite exactly if it visits one, and
    for a variable before it computes anything. -/
theorem numbers_stay_finite (functions : FunctionTable) (ctx : Context) (e : Expr) :
    (∀ vars, bind functions ctx e = .ok vars →
      (∀ d, Visits functions vars e d →
        (∀ x, eval functions vars d = .ok (.number x) → x.isFinite) ∧
        ∀ operands, Applies functions vars d operands → ∀ v ∈ operands, v.toNumber.isFinite) ∧
      (∀ d err, Visits functions vars e d → Overflows functions vars d err →
        amount functions ctx e = .error err) ∧
      ∀ err, err.OfOverflow → amount functions ctx e = .error err →
        ∃ d, Visits functions vars e d ∧ Overflows functions vars d err) ∧
    (∀ before name x after, e.nodes = before ++ var name :: after →
      ctx.get? name = some (.scalar (.float x)) → x.isFinite = false →
      (∃ err, amount functions ctx e = .error err) ∧
      ((∀ n ∈ before, ∀ err, ¬ Offends functions ctx n err) →
        amount functions ctx e = .error (.nonFinite x))) ∧
    (∀ x, amount functions ctx e = .ok x → x.isFinite) ∧
    ∀ text x, evaluate functions ctx text = .ok x → x.isFinite := by
  refine ⟨fun vars bound => ⟨fun d _ => ⟨?_, ?_⟩, ?_, ?_⟩, ?_, ?_, ?_⟩
  · intro x evaluated
    exact isFinite_of_eval (isFinite_of_bind bound) evaluated
  · intro operands applied
    exact isFinite_of_applies (isFinite_of_bind bound) applied
  · intro d err visits overflows
    have kind := ofOverflow_of_overflows overflows
    rw [amount_overflows_iff bound kind, eval_overflows_iff kind]
    exact ⟨d, visits, overflows⟩
  · intro err kind failed
    rwa [amount_overflows_iff bound kind, eval_overflows_iff kind] at failed
  · intro before name x after split entry large
    exact amount_of_variable split entry large
  · intro x paid
    exact isFinite_of_amount paid
  · intro text x paid
    exact isFinite_of_evaluate paid

def tall : Binary64 := Binary64.ofInt (10 ^ 200)

/-- The product is beyond the largest double, which a comparison with one would hide. -/
def oversizedProduct : Expr := binary .mul (number tall) (number tall)

def cappedProduct : Expr := call "min" [oversizedProduct, number (Binary64.ofInt 1)]

def unlimitedContext : Context := .ofList [("limit", .scalar (.float (.infinite false)))]

theorem numbers_stay_finite_capped :
    bind .standard .empty cappedProduct = .ok [] ∧
    Overflows .standard [] oversizedProduct (.nonFinite (.infinite false)) ∧
    amount .standard .empty cappedProduct = .error (.nonFinite (.infinite false)) ∧
    (∃ d, Visits .standard [] cappedProduct d ∧
      Overflows .standard [] d (.nonFinite (.infinite false))) ∧
    amount .standard unlimitedContext (binary .add (var "limit") (var "missing")) =
      .error (.nonFinite (.infinite false)) := by
  have infinite : BinaryOp.mul.compute tall tall = .infinite false := by decide +kernel
  have value : eval .standard [] (number tall) = .ok (.number tall) := by
    apply toOption_eq_some_iff.mp
    decide +kernel
  have overflows : Overflows .standard [] oversizedProduct (.nonFinite (.infinite false)) := by
    have large : (BinaryOp.mul.compute tall tall).isFinite = false := by rw [infinite]; rfl
    rw [← infinite]
    exact .operation (x := .number tall) (y := .number tall) value value nofun large
  have earlier : ∀ a ∈ ([] : List Expr), ∃ v, eval .standard [] a = .ok v := nofun
  have visits : Visits .standard [] cappedProduct oversizedProduct :=
    .argument (b := .min) rfl rfl earlier (.self _)
  obtain ⟨computing, -⟩ := numbers_stay_finite .standard .empty cappedProduct
  obtain ⟨-, ends, reached⟩ := computing [] rfl
  have failed := ends _ _ visits overflows
  refine ⟨rfl, overflows, failed, reached _ trivial failed, ?_⟩
  have refused := (numbers_stay_finite .standard unlimitedContext
    (binary .add (var "limit") (var "missing"))).2.1 [binary .add (var "limit") (var "missing")]
    "limit" (.infinite false) [var "missing"] rfl rfl rfl
  apply refused.2
  intro n mem err offends
  obtain rfl := List.mem_singleton.mp mem
  cases offends

end Expr

end Commission
