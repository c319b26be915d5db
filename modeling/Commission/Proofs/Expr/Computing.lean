import Commission.Proofs.Expr.Binding

/-!
The second phase of evaluation. Its errors are those of arithmetic and those of a node that is
stuck; the first phase leaves no node stuck. Main statement: `binding_complete`.
-/
namespace Commission

def ExprError.OfComputing : ExprError → Prop
  | .divisionByZero | .invalidArgument .. | .nonFinite _ => True
  | _ => False

theorem failsWith_finite (x : Binary64) :
    FailsWith ExprError.OfComputing (Operand.finite x) := by
  unfold Operand.finite
  split
  · exact failsWith_ok _
  · exact failsWith_error trivial

/-! ## Functions -/

namespace Arity
variable {α : Type}

theorem exactly_accepts_iff (n count : Nat) : (exactly n).accepts count ↔ count = n := by
  have both : (exactly n).accepts count = (decide (n ≤ count) && decide (count ≤ n)) := rfl
  rw [both, Bool.and_eq_true, decide_eq_true_eq, decide_eq_true_eq]
  omega

theorem one_of_accepts {args : List α} (fits : (exactly 1).accepts args.length) :
    ∃ x, args = [x] := by
  rw [exactly_accepts_iff] at fits
  exact List.length_eq_one_iff.mp fits

theorem two_of_accepts {args : List α} (fits : (exactly 2).accepts args.length) :
    ∃ x y, args = [x, y] := by
  rw [exactly_accepts_iff] at fits
  match args with
  | [x, y] => exact ⟨x, y, rfl⟩

theorem three_of_accepts {args : List α} (fits : (exactly 3).accepts args.length) :
    ∃ x y z, args = [x, y, z] := by
  rw [exactly_accepts_iff] at fits
  match args with
  | [x, y, z] => exact ⟨x, y, z, rfl⟩

end Arity

namespace Builtin

theorem failsWith_roundTo (x digits : Binary64) :
    FailsWith ExprError.OfComputing (roundTo x digits) := by
  unfold roundTo
  split
  · split
    · exact failsWith_ok _
    · exact failsWith_error trivial
  · exact failsWith_error trivial

/-- The table of arities agrees with the arguments that functions are defined at. -/
theorem failsWith_compute {b : Builtin} {args : List Operand} (eager : b.isLazy = false)
    (fits : b.arity.accepts args.length) : FailsWith ExprError.OfComputing (b.compute args) := by
  cases b with
  | abs | ceil | floor | not =>
    obtain ⟨x, rfl⟩ := Arity.one_of_accepts fits
    exact failsWith_ok _
  | sqrt =>
    obtain ⟨x, rfl⟩ := Arity.one_of_accepts fits
    simp only [compute]
    split
    · exact failsWith_error trivial
    · exact failsWith_ok _
  | pow | eq | neq | gt | lt | gte | lte =>
    obtain ⟨x, y, rfl⟩ := Arity.two_of_accepts fits
    exact failsWith_ok _
  | round =>
    match args with
    | [x] => exact failsWith_ok _
    | [x, digits] => exact failsWith_map _ (failsWith_roundTo _ _)
    | [] => contradiction
    | _ :: _ :: _ :: _ => simp [arity, Arity.accepts] at fits
  | min | max =>
    match args with
    | first :: rest => exact failsWith_ok _
    | [] => contradiction
  | and | or | ifElse => contradiction

theorem failsWith_apply {b : Builtin} {args : List Operand} (eager : b.isLazy = false)
    (fits : b.arity.accepts args.length) : FailsWith ExprError.OfComputing (b.apply args) := by
  apply failsWith_bind (failsWith_compute eager fits)
  intro value _
  split
  · split
    · exact failsWith_error trivial
    · exact failsWith_finite _
  · exact failsWith_ok _

end Builtin

namespace Expr

/-! ## Nodes that cannot be computed -/

inductive Stuck (functions : FunctionTable) (vars : Bindings) : Expr → ExprError → Prop where
  | unbound {name : String} (missing : vars.lookup name = none) :
      Stuck functions vars (var name) (.unknownVariable name)
  | function {name : String} {args : List Expr} (missing : functions.get? name = none) :
      Stuck functions vars (call name args) (.unknownFunction name)
  | arity {name : String} {args : List Expr} {b : Builtin} (known : functions.get? name = some b)
      (misfit : b.arity.accepts args.length = false) :
      Stuck functions vars (call name args) (.arity b.name b.arity args.length)

section Computing
variable {functions : FunctionTable} {vars : Bindings}

theorem failsWith_arithmetic (op : BinaryOp) (x y : Binary64) :
    FailsWith ExprError.OfComputing (arithmetic op x y) := by
  cases op with
  | add | sub | mul => exact failsWith_finite _
  | div =>
    simp only [arithmetic]
    split
    · exact failsWith_error trivial
    · exact failsWith_finite _

section Arguments
variable {args : List Expr}
  (each : ∀ e ∈ args, FailsWith ExprError.OfComputing (eval functions vars e))

include each

theorem failsWith_evalAll : FailsWith ExprError.OfComputing (evalAll functions vars args) := by
  induction args with
  | nil => exact failsWith_ok _
  | cons e es ih =>
    have later := ih fun f mem => each f (by simp [mem])
    exact failsWith_bind (each e (by simp)) fun _ _ => failsWith_bind later fun _ _ => failsWith_ok _

theorem failsWith_evalIf (fits : Builtin.ifElse.arity.accepts args.length) :
    FailsWith ExprError.OfComputing (evalIf functions vars args) := by
  obtain ⟨cond, yes, no, rfl⟩ := Arity.three_of_accepts fits
  apply failsWith_bind (each cond (by simp))
  intro c _
  split
  · exact each yes (by simp)
  · exact each no (by simp)

theorem failsWith_evalChoice (b : Builtin) (settles : Bool)
    (fits : (Arity.exactly 2).accepts args.length) :
    FailsWith ExprError.OfComputing (evalChoice functions vars b settles args) := by
  obtain ⟨lhs, rhs, rfl⟩ := Arity.two_of_accepts fits
  apply failsWith_bind (each lhs (by simp))
  intro x _
  split
  · exact failsWith_ok _
  · exact each rhs (by simp)

end Arguments

theorem length_evalAll {args : List Expr} {values : List Operand}
    (evaluated : evalAll functions vars args = .ok values) : values.length = args.length := by
  induction args generalizing values with
  | nil =>
    obtain rfl := Except.ok.inj evaluated
    rfl
  | cons e es ih =>
    rw [evalAll, both_eq_ok_iff] at evaluated
    obtain ⟨first, rest, -, later, rfl⟩ := evaluated
    rw [List.length_cons, List.length_cons, ih later]

theorem failsWith_eval {e : Expr}
    (sound : ∀ node ∈ e.nodes, ∀ err, ¬ Stuck functions vars node err) :
    FailsWith ExprError.OfComputing (eval functions vars e) := by
  induction e with
  | number x => exact failsWith_finite x
  | var name =>
    have here := sound (var name) (by simp [nodes])
    unfold eval
    split
    · exact failsWith_ok _
    · next missing => exact absurd (.unbound missing) (here _)
  | negate e ih =>
    have below := ih fun node mem => sound node (by simp [nodes, mem])
    exact failsWith_bind below fun _ _ => failsWith_finite _
  | binary op lhs rhs left right =>
    have first := left fun node mem => sound node (by simp [nodes, mem])
    have second := right fun node mem => sound node (by simp [nodes, mem])
    exact failsWith_bind first fun _ _ => failsWith_bind second fun _ _ =>
      failsWith_arithmetic op _ _
  | call name args each =>
    have here := sound (call name args) (by simp [nodes])
    have fits : ∀ b, functions.get? name = some b → b.arity.accepts args.length := by
      intro b known
      cases misfit : b.arity.accepts args.length with
      | true => rfl
      | false => exact absurd (.arity known misfit) (here _)
    have below : ∀ e ∈ args, FailsWith ExprError.OfComputing (eval functions vars e) := by
      intro e mem
      apply each e mem
      intro node inside
      exact sound node (mem_nodes_call mem inside)
    unfold eval
    split
    case h_1 missing => exact absurd (.function missing) (here _)
    case h_2 known => exact failsWith_evalIf below (fits _ known)
    case h_3 known => exact failsWith_evalChoice below _ _ (fits _ known)
    case h_4 known => exact failsWith_evalChoice below _ _ (fits _ known)
    case h_5 b notIf notAnd notOr known =>
      have eager : b.isLazy = false := by cases b <;> first | rfl | contradiction
      apply failsWith_bind (failsWith_evalAll below)
      intro values evaluated
      apply Builtin.failsWith_apply eager
      rw [length_evalAll evaluated]
      exact fits b known

end Computing

/-! ## After the first phase -/

section Phases
variable {functions : FunctionTable} {ctx : Context} {e : Expr}

theorem not_stuck_of_bind {vars : Bindings} (bound : bind functions ctx e = .ok vars)
    {node : Expr} (mem : node ∈ e.nodes) {err : ExprError} :
    ¬ Stuck functions vars node err := by
  have sound := not_offends_of_bind functions ctx bound mem
  intro stuck
  cases stuck with
  | unbound missing =>
    obtain ⟨value, -, found⟩ := lookup_of_bind bound mem
    rw [missing] at found
    contradiction
  | function missing => exact sound _ (.unknownFunction missing)
  | arity known misfit => exact sound _ (.arity known misfit)

theorem ofComputing_of_bind {vars : Bindings} (bound : bind functions ctx e = .ok vars) :
    FailsWith ExprError.OfComputing (eval functions vars e) :=
  failsWith_eval fun _ mem _ => not_stuck_of_bind bound mem

end Phases

/-- The first phase is complete and comes first: what it accepts fails only in computing, and what
    it refuses it refuses for the first node that offends, evaluated or not. -/
theorem binding_complete (functions : FunctionTable) (ctx : Context) (e : Expr) :
    (∀ vars, bind functions ctx e = .ok vars →
      ∀ err, eval functions vars e = .error err → err.OfComputing) ∧
    (∀ err, bind functions ctx e = .error err ↔
      ∃ before node after, e.nodes = before ++ node :: after ∧
        (∀ n ∈ before, ∀ f, ¬ Offends functions ctx n f) ∧ Offends functions ctx node err) ∧
    ∀ err, bind functions ctx e = .error err → amount functions ctx e = .error err := by
  refine ⟨fun vars bound => ofComputing_of_bind bound, fun err => bind_eq_error_iff functions ctx,
    fun err failed => ?_⟩
  rw [amount, failed]
  rfl

/-- A call whose second argument, which is never evaluated, has no value. -/
def untaken : Expr := call "if" [number .zero, var "missing", number .zero]

def ratio : Expr := binary .div (number .zero) (number .zero)

theorem binding_complete_untaken :
    bind .standard .empty untaken = .error (.unknownVariable "missing") ∧
    amount .standard .empty untaken = .error (.unknownVariable "missing") ∧
    eval .standard [] untaken = .ok (.number .zero) ∧
    bind .standard .empty ratio = .ok [] ∧
    eval .standard [] ratio = .error .divisionByZero ∧
    ExprError.OfComputing .divisionByZero := by
  have refused : bind .standard .empty untaken = .error (.unknownVariable "missing") := by
    refine (binding_complete .standard .empty untaken).2.1 _ |>.mpr
      ⟨[untaken, number .zero], var "missing", [number .zero], rfl, ?_, .unknownVariable rfl rfl⟩
    have sound : ∀ n ∈ [untaken, number .zero], fault? .standard .empty n = none := by decide
    intro n mem f
    rw [← fault?_eq_some_iff, sound n mem]
    simp
  exact ⟨refused, (binding_complete .standard .empty untaken).2.2 _ refused, rfl, rfl, rfl,
    (binding_complete .standard .empty ratio).1 [] rfl _ rfl⟩

end Expr
end Commission
