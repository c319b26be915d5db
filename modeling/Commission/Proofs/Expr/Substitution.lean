import Commission.Proofs.Expr.Values
import Commission.Proofs.Rule.Mentions

/-!
Variables as literals. A variable bound to a finite number may be replaced by that number, after
which its entry is no longer read. Names of functions are not variables: no entry of the context
reaches them. Main statement: `variable_is_literal`.
-/
namespace Commission.Expr

mutual

def substitute (x : String) (n : Binary64) : Expr → Expr
  | number y => number y
  | var name => if name = x then number n else var name
  | negate e => negate (substitute x n e)
  | binary op lhs rhs => binary op (substitute x n lhs) (substitute x n rhs)
  | call name args => call name (substituteAll x n args)

def substituteAll (x : String) (n : Binary64) : List Expr → List Expr
  | [] => []
  | e :: es => substitute x n e :: substituteAll x n es

end

section Substitution
variable {x : String} {n : Binary64}

theorem substituteAll_eq_map (es : List Expr) :
    substituteAll x n es = es.map (substitute x n) := by
  induction es with
  | nil => rfl
  | cons e es ih => rw [substituteAll, List.map_cons, ih]

theorem nodesOfAll_substitute {es : List Expr}
    (each : ∀ e ∈ es, (e.substitute x n).nodes = e.nodes.map (substitute x n)) :
    nodesOfAll (substituteAll x n es) = (nodesOfAll es).map (substitute x n) := by
  induction es with
  | nil => rfl
  | cons e es ih =>
    have later := ih fun f mem => each f (by simp [mem])
    rw [substituteAll, nodesOfAll, nodesOfAll, List.map_append, each e (by simp), later]

/-- A literal is one node as a variable is, so the nodes keep their places. -/
theorem nodes_substitute (e : Expr) :
    (e.substitute x n).nodes = e.nodes.map (substitute x n) := by
  induction e with
  | number y => rfl
  | var name =>
    simp only [substitute, nodes, List.map_cons, List.map_nil]
    split <;> rfl
  | negate e ih => rw [substitute, nodes, nodes, List.map_cons, ih, substitute]
  | binary op lhs rhs left right =>
    rw [substitute, nodes, nodes, List.map_cons, List.map_append, left, right, substitute]
  | call name args each =>
    rw [substitute, nodes, nodes, List.map_cons, nodesOfAll_substitute each, substitute]

theorem var_mem_substitute {e : Expr} {name : String} :
    var name ∈ (e.substitute x n).nodes ↔ name ≠ x ∧ var name ∈ e.nodes := by
  rw [nodes_substitute, List.mem_map]
  constructor
  · rintro ⟨node, mem, same⟩
    cases node with
    | var other =>
      rw [substitute] at same
      split at same
      · contradiction
      · next apart =>
        obtain rfl : other = name := by simpa using same
        exact ⟨apart, mem⟩
    | _ => simp [substitute] at same
  · rintro ⟨apart, mem⟩
    exact ⟨var name, mem, by rw [substitute, if_neg apart]⟩

section InContext
variable {functions : FunctionTable} {ctx : Context}
  (bound : resolve functions ctx x = .ok (.number n))

include bound

theorem fault?_substitute (node : Expr) :
    fault? functions ctx (node.substitute x n) = fault? functions ctx node := by
  cases node with
  | var name =>
    rw [substitute]
    split
    · next same =>
      rw [same, fault?, bound]
      rfl
    · rfl
  | call name args => rw [substitute, substituteAll_eq_map, fault?, fault?, List.length_map]
  | _ => rfl

theorem failure?_bind_substitute (e : Expr) :
    failure? (bind functions ctx (e.substitute x n)) = failure? (bind functions ctx e) := by
  rw [failure?_bindings, failure?_bindings, nodes_substitute, List.findSome?_map]
  exact congrArg (List.findSome? · e.nodes) (funext (fault?_substitute bound))

omit bound in
theorem eval_substitute {vars others : Bindings} (finite : n.isFinite) {e : Expr}
    (literal : var x ∈ e.nodes → vars.lookup x = some (.number n))
    (agree : ∀ name, name ≠ x → var name ∈ e.nodes → others.lookup name = vars.lookup name) :
    eval functions others (e.substitute x n) = eval functions vars e := by
  induction e with
  | number y => rfl
  | var name =>
    rw [substitute]
    split
    · next same =>
      subst same
      have here := literal (by simp [nodes])
      rw [eval, eval, here, Operand.finite, if_pos finite]
    · next apart =>
      have here := agree name apart (by simp [nodes])
      rw [eval, eval, here]
  | negate e ih =>
    have below := ih (fun mem => literal (by simp [nodes, mem]))
      fun name apart mem => agree name apart (by simp [nodes, mem])
    rw [substitute, eval, eval, below]
  | binary op lhs rhs left right =>
    have first := left (fun mem => literal (by simp [nodes, mem]))
      fun name apart mem => agree name apart (by simp [nodes, mem])
    have second := right (fun mem => literal (by simp [nodes, mem]))
      fun name apart mem => agree name apart (by simp [nodes, mem])
    rw [substitute, eval, eval, first, second]
  | call name args each =>
    rw [substitute, substituteAll_eq_map]
    apply eval_call_congr rfl
    rw [List.map_map]
    apply List.map_congr_left
    intro e mem
    apply each e mem
    · intro inside
      exact literal (mem_nodes_call mem inside)
    · intro name apart inside
      exact agree name apart (mem_nodes_call mem inside)

theorem value_substitute (finite : n.isFinite) (e : Expr) :
    value functions ctx (e.substitute x n) = value functions ctx e := by
  apply value_congr (failure?_bind_substitute bound e)
  intro others vars accepted' accepted
  apply eval_substitute finite
  · intro mem
    obtain ⟨v, resolved, found⟩ := lookup_of_bind accepted mem
    obtain rfl := Except.ok.inj (bound.symm.trans resolved)
    exact found
  · intro name apart mem
    have mem' : var name ∈ (e.substitute x n).nodes := var_mem_substitute.mpr ⟨apart, mem⟩
    exact (resolves_bind accepted').lookup_congr (resolves_bind accepted) rfl mem' mem

end InContext

theorem resolve_of_number {functions : FunctionTable} {ctx : Context} {s : Scalar}
    (entry : ctx.get? x = some (.scalar s)) (number : s.kind = .number)
    (view : s.toNumber? = some n) (finite : n.isFinite) :
    resolve functions ctx x = .ok (.number n) := by
  rw [resolve, entry]
  cases s with
  | int m =>
    obtain rfl := Option.some.inj view
    exact if_pos finite
  | float y =>
    obtain rfl := Option.some.inj view
    exact if_pos finite
  | bool b => contradiction
  | text s => contradiction

end Substitution

/-- A variable with a finite number for its entry may be replaced by this number, and the entry then
    be removed, without a change of the amount or the error. A call of a function with the name of
    the variable comes to the same whatever the entry is, if its arguments do not read it. -/
theorem variable_is_literal (functions : FunctionTable) {ctx : Context} {x : String} {s : Scalar}
    {n : Binary64} (entry : ctx.get? x = some (.scalar s)) (number : s.kind = .number)
    (view : s.toNumber? = some n) (finite : n.isFinite) :
    (∀ e : Expr, amount functions ctx (e.substitute x n) = amount functions ctx e ∧
      amount functions (ctx.erase x) (e.substitute x n) = amount functions ctx e) ∧
    ∀ args : List Expr, (∀ arg ∈ args, var x ∉ arg.nodes) →
      amount functions (ctx.erase x) (call x args) = amount functions ctx (call x args) ∧
      ∀ v, amount functions (ctx.insert x v) (call x args) = amount functions ctx (call x args) := by
  have bound : resolve functions ctx x = .ok (.number n) :=
    resolve_of_number entry number view finite
  constructor
  · intro e
    have substituted : amount functions ctx (e.substitute x n) = amount functions ctx e := by
      rw [amount_eq_value, amount_eq_value, value_substitute bound finite]
    have unread : amount functions (ctx.erase x) (e.substitute x n) =
        amount functions ctx (e.substitute x n) := by
      apply amount_congr
      intro name mem
      have apart := (var_mem_substitute.mp (mem_names.mp mem)).1
      rw [NameMap.get?_erase, if_neg apart]
    exact ⟨substituted, unread.trans substituted⟩
  · intro args unread
    have apart : ∀ name ∈ (call x args).names, name ≠ x := by
      rintro name mem rfl
      rcases List.mem_cons.mp (mem_names.mp mem) with same | below
      · contradiction
      · obtain ⟨arg, inside, read⟩ := mem_nodesOfAll.mp below
        exact unread arg inside read
    refine ⟨amount_congr ?_, fun v => amount_congr ?_⟩
    · intro name mem
      rw [NameMap.get?_erase, if_neg (apart name mem)]
    · intro name mem
      rw [NameMap.get?_insert, if_neg (apart name mem)]

/-- The entry has the name of the function that is called. -/
def minimumContext : Context := .ofList [("min", .scalar (.int 7))]

def cappedMultiple : Expr :=
  binary .mul (call "min" [var "min", number (Binary64.ofInt 8)]) (var "min")

theorem variable_is_literal_minimum :
    cappedMultiple.substitute "min" (Binary64.ofInt 7) =
      binary .mul (call "min" [number (Binary64.ofInt 7), number (Binary64.ofInt 8)])
        (number (Binary64.ofInt 7)) ∧
    amount .standard minimumContext cappedMultiple = .ok (Binary64.ofInt 49) ∧
    amount .standard (minimumContext.erase "min")
      (cappedMultiple.substitute "min" (Binary64.ofInt 7)) = .ok (Binary64.ofInt 49) ∧
    amount .standard (minimumContext.insert "min" (.list []))
      (call "min" [number (Binary64.ofInt 7)]) = .ok (Binary64.ofInt 7) := by
  have product : amount .standard minimumContext cappedMultiple = .ok (Binary64.ofInt 49) := by
    apply toOption_eq_some_iff.mp
    decide +kernel
  have one : amount .standard minimumContext (call "min" [number (Binary64.ofInt 7)]) =
      .ok (Binary64.ofInt 7) := by
    apply toOption_eq_some_iff.mp
    decide +kernel
  have entry : minimumContext.get? "min" = some (.scalar (.int 7)) := rfl
  have view : Scalar.toNumber? (.int 7) = some (Binary64.ofInt 7) := rfl
  obtain ⟨literal, calls⟩ := variable_is_literal .standard entry rfl view (by decide +kernel)
  refine ⟨rfl, product, (literal cappedMultiple).2.trans product, ?_⟩
  exact ((calls [number (Binary64.ofInt 7)] (by simp [nodes])).2 (.list [])).trans one

end Commission.Expr
