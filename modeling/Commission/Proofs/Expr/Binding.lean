import Commission.Expr.Evaluation
import Commission.Proofs.Expr.Nodes
import Commission.Proofs.Failure
import Commission.Proofs.Number.Numeral

/-!
The first phase of evaluation. It fails with what is wrong with the first node that offends, in the
order of the nodes, and otherwise binds every variable of the calculation.
-/
namespace Commission.Expr

/-- What is wrong with a node before anything is computed: a variable has no finite value, a call no
    function or no fitting number of arguments. -/
inductive Offends (functions : FunctionTable) (ctx : Context) : Expr → ExprError → Prop where
  | unknownVariable {name : String} (unbound : ctx.get? name = none)
      (other : functions.get? name = none) : Offends functions ctx (var name) (.unknownVariable name)
  | functionAsValue {name : String} {b : Builtin} (unbound : ctx.get? name = none)
      (function : functions.get? name = some b) :
      Offends functions ctx (var name) (.functionAsValue name)
  | text {name s : String} (bound : ctx.get? name = some (.scalar (.text s))) :
      Offends functions ctx (var name) (.nonNumericVariable name .string)
  | list {name : String} {items : List Scalar} (bound : ctx.get? name = some (.list items)) :
      Offends functions ctx (var name) (.nonNumericVariable name .list)
  | nonFinite {name : String} {x : Binary64} (bound : ctx.get? name = some (.scalar (.float x)))
      (large : x.isFinite = false) : Offends functions ctx (var name) (.nonFinite x)
  | unknownFunction {name : String} {args : List Expr} (missing : functions.get? name = none) :
      Offends functions ctx (call name args) (.unknownFunction name)
  | arity {name : String} {args : List Expr} {b : Builtin} (known : functions.get? name = some b)
      (misfit : b.arity.accepts args.length = false) :
      Offends functions ctx (call name args) (.arity name b.arity args.length)

section Binding
variable (functions : FunctionTable) (ctx : Context)

def fault? : Expr → Option ExprError
  | var name => failure? (resolve functions ctx name)
  | call name args => failure? (checkCall functions name args.length)
  | _ => none

theorem failure?_finite_iff {x : Binary64} {e : ExprError} :
    failure? (Operand.finite x) = some e ↔ x.isFinite = false ∧ .nonFinite x = e := by
  unfold Operand.finite
  split
  · simp_all [failure?]
  · simp_all [failure?]

theorem failure?_resolve_none {name : String} (unbound : ctx.get? name = none) :
    failure? (resolve functions ctx name) =
      some (if (functions.get? name).isSome then .functionAsValue name
        else .unknownVariable name) := by
  have known : functions.contains name = (functions.get? name).isSome := rfl
  simp only [resolve, unbound, known]
  by_cases function : (functions.get? name).isSome
  · simp [function, failure?]
  · simp [function, failure?]

theorem failure?_resolve_iff {name : String} {e : ExprError} :
    failure? (resolve functions ctx name) = some e ↔ Offends functions ctx (var name) e := by
  constructor
  · intro failed
    cases bound : ctx.get? name with
    | none =>
      rw [failure?_resolve_none functions ctx bound] at failed
      cases function : functions.get? name with
      | none =>
        obtain rfl : .unknownVariable name = e := by simpa [function] using failed
        exact .unknownVariable bound function
      | some b =>
        obtain rfl : .functionAsValue name = e := by simpa [function] using failed
        exact .functionAsValue bound function
    | some v =>
      rw [resolve, bound] at failed
      match v with
      | .list items =>
        obtain rfl : .nonNumericVariable name .list = e := by simpa [failure?] using failed
        exact .list bound
      | .scalar (.text s) =>
        obtain rfl : .nonNumericVariable name .string = e := by simpa [failure?] using failed
        exact .text bound
      | .scalar (.bool b) => simp [failure?] at failed
      | .scalar (.int n) =>
        have large := (failure?_finite_iff.mp failed).1
        rw [Binary64.isFinite_ofInt] at large
        contradiction
      | .scalar (.float x) =>
        obtain ⟨large, rfl⟩ := failure?_finite_iff.mp failed
        exact .nonFinite bound large
  · intro offends
    cases offends with
    | unknownVariable unbound other => simp [failure?_resolve_none functions ctx unbound, other]
    | functionAsValue unbound function =>
      simp [failure?_resolve_none functions ctx unbound, function]
    | text bound => simp [resolve, bound, failure?]
    | list bound => simp [resolve, bound, failure?]
    | nonFinite bound large => simp [resolve, bound, failure?_finite_iff, large]

theorem fault?_eq_some_iff {node : Expr} {e : ExprError} :
    fault? functions ctx node = some e ↔ Offends functions ctx node e := by
  cases node with
  | var name => exact failure?_resolve_iff functions ctx
  | call name args =>
    simp only [fault?, checkCall]
    constructor
    · intro failed
      split at failed
      · next missing =>
        obtain rfl := Option.some.inj failed
        exact .unknownFunction missing
      · next b known =>
        split at failed
        · contradiction
        · next misfit =>
          obtain rfl := Option.some.inj failed
          exact .arity known (by simpa using misfit)
    · intro offends
      cases offends with
      | unknownFunction missing => simp [missing, failure?]
      | arity known misfit => simp [known, misfit, failure?]
  | _ =>
    constructor
    · intro failed
      contradiction
    · intro offends
      cases offends

/-! ## The nodes in their order -/

theorem failure?_bindAll {es : List Expr}
    (each : ∀ e ∈ es, failure? (bind functions ctx e) = e.nodes.findSome? (fault? functions ctx)) :
    failure? (bindAll functions ctx es) = (nodesOfAll es).findSome? (fault? functions ctx) := by
  induction es with
  | nil => rfl
  | cons e es ih =>
    have later := ih fun f mem => each f (by simp [mem])
    rw [bindAll, nodesOfAll, List.findSome?_append, ← each e (by simp), ← later]
    exact failure?_both

theorem failure?_bindings (e : Expr) :
    failure? (bind functions ctx e) = e.nodes.findSome? (fault? functions ctx) := by
  induction e with
  | number x => rfl
  | var name =>
    simp only [bind, nodes, fault?, List.findSome?_cons, List.findSome?_nil]
    cases resolve functions ctx name <;> rfl
  | negate e ih => rw [bind, nodes, List.findSome?_cons_of_isNone rfl, ih]
  | binary op lhs rhs left right =>
    rw [bind, nodes, List.findSome?_cons_of_isNone rfl, List.findSome?_append, ← left, ← right]
    exact failure?_both
  | call name args each =>
    have checked : failure? (bind functions ctx (call name args)) =
        (failure? (checkCall functions name args.length)).or
          (failure? (bindAll functions ctx args)) := failure?_bind fun _ _ => rfl
    rw [checked, failure?_bindAll functions ctx each, nodes, List.findSome?_cons, fault?]
    cases failure? (checkCall functions name args.length) <;> rfl

/-- The first phase fails with what is wrong with the first node that offends. -/
theorem bind_eq_error_iff {e : Expr} {err : ExprError} :
    bind functions ctx e = .error err ↔ ∃ before node after, e.nodes = before ++ node :: after ∧
      (∀ n ∈ before, ∀ f, ¬ Offends functions ctx n f) ∧ Offends functions ctx node err := by
  rw [← failure?_eq_some_iff, failure?_bindings, List.findSome?_eq_some_iff]
  simp only [fault?_eq_some_iff, Option.eq_none_iff_forall_ne_some, ne_eq, and_comm]

theorem not_offends_of_bind {e : Expr} {vars : Bindings} (bound : bind functions ctx e = .ok vars)
    {node : Expr} (mem : node ∈ e.nodes) (f : ExprError) : ¬ Offends functions ctx node f := by
  have sound := failure?_eq_none_iff.mpr ⟨vars, bound⟩
  rw [failure?_bindings, List.findSome?_eq_none_iff] at sound
  rw [← fault?_eq_some_iff, sound node mem]
  simp

/-! ## The variables -/

structure Resolves (vars : Bindings) (ns : List Expr) : Prop where
  resolved : ∀ p ∈ vars, resolve functions ctx p.1 = .ok p.2
  covered : ∀ name, var name ∈ ns → ∃ p ∈ vars, p.1 = name

variable {functions ctx}

theorem Resolves.append {left right : Bindings} {ns ms : List Expr}
    (first : Resolves functions ctx left ns) (second : Resolves functions ctx right ms) :
    Resolves functions ctx (left ++ right) (ns ++ ms) where
  resolved p mem := by
    rcases List.mem_append.mp mem with mem | mem
    · exact first.resolved p mem
    · exact second.resolved p mem
  covered name mem := by
    rcases List.mem_append.mp mem with mem | mem
    · obtain ⟨p, inside, same⟩ := first.covered name mem
      exact ⟨p, List.mem_append_left _ inside, same⟩
    · obtain ⟨p, inside, same⟩ := second.covered name mem
      exact ⟨p, List.mem_append_right _ inside, same⟩

theorem Resolves.node {vars : Bindings} {ns : List Expr} (rest : Resolves functions ctx vars ns)
    {node : Expr} (other : ∀ name, node ≠ var name) : Resolves functions ctx vars (node :: ns) where
  resolved := rest.resolved
  covered name mem := by
    rcases List.mem_cons.mp mem with same | mem
    · exact absurd same.symm (other name)
    · exact rest.covered name mem

theorem Resolves.nil : Resolves functions ctx [] [] := by
  constructor <;> simp

theorem resolves_bindAll {es : List Expr}
    (each : ∀ e ∈ es, ∀ vars, bind functions ctx e = .ok vars →
      Resolves functions ctx vars e.nodes) {vars : Bindings}
    (bound : bindAll functions ctx es = .ok vars) :
    Resolves functions ctx vars (nodesOfAll es) := by
  induction es generalizing vars with
  | nil =>
    obtain rfl := Except.ok.inj bound
    exact .nil
  | cons e es ih =>
    rw [bindAll, both_eq_ok_iff] at bound
    obtain ⟨first, rest, one, all, rfl⟩ := bound
    exact (each e (by simp) first one).append (ih (fun f mem => each f (by simp [mem])) all)

theorem resolves_bind {e : Expr} {vars : Bindings} (bound : bind functions ctx e = .ok vars) :
    Resolves functions ctx vars e.nodes := by
  induction e generalizing vars with
  | number x =>
    obtain rfl := Except.ok.inj bound
    exact Resolves.nil.node (by simp)
  | var name =>
    rw [bind, bind_eq_ok_iff] at bound
    obtain ⟨value, resolved, same⟩ := bound
    obtain rfl := Except.ok.inj same
    constructor
    · simpa using resolved
    · simp [nodes]
  | negate e ih => exact (ih bound).node (by simp)
  | binary op lhs rhs ihl ihr =>
    rw [bind, both_eq_ok_iff] at bound
    obtain ⟨left, right, first, second, rfl⟩ := bound
    exact ((ihl first).append (ihr second)).node (by simp)
  | call name args each =>
    rw [bind, bind_eq_ok_iff] at bound
    obtain ⟨-, -, bound⟩ := bound
    exact (resolves_bindAll (fun e mem _ => each e mem) bound).node (by simp)

theorem Resolves.lookup {vars : Bindings} {ns : List Expr} (all : Resolves functions ctx vars ns)
    {name : String} (mem : var name ∈ ns) :
    ∃ value, resolve functions ctx name = .ok value ∧ vars.lookup name = some value := by
  cases found : vars.lookup name with
  | none =>
    obtain ⟨p, inside, same⟩ := all.covered name mem
    have := List.lookup_eq_none_iff.mp found p inside
    simp [same] at this
  | some value =>
    obtain ⟨before, after, split, -⟩ := List.lookup_eq_some_iff.mp found
    exact ⟨value, all.resolved (name, value) (by simp [split]), rfl⟩

/-- Bindings agree on a variable that comes to the same where each was resolved. -/
theorem Resolves.lookup_congr {further : FunctionTable} {other : Context} {vars others : Bindings}
    {ns ms : List Expr} (all : Resolves functions ctx vars ns)
    (all' : Resolves further other others ms) {name : String}
    (same : resolve functions ctx name = resolve further other name) (mem : var name ∈ ns)
    (mem' : var name ∈ ms) : vars.lookup name = others.lookup name := by
  obtain ⟨value, resolved, found⟩ := all.lookup mem
  obtain ⟨value', resolved', found'⟩ := all'.lookup mem'
  rw [same, resolved'] at resolved
  obtain rfl := Except.ok.inj resolved
  rw [found, found']

theorem lookup_of_bind {e : Expr} {vars : Bindings} (bound : bind functions ctx e = .ok vars)
    {name : String} (mem : var name ∈ e.nodes) :
    ∃ value, resolve functions ctx name = .ok value ∧ vars.lookup name = some value :=
  (resolves_bind bound).lookup mem

end Binding

end Commission.Expr
