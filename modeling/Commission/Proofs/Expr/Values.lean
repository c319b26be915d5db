import Commission.Proofs.Expr.Computing

/-!
The value of a calculation is made of the values of its parts. A call depends on its arguments
through what they come to, a calculation on its bindings through the variables it contains, so in
a context every part of a calculation has a value of its own.
-/
namespace Commission

namespace Builtin

/-- Where a lazy function goes on once its first argument has come to `c`: at one of the other
    arguments, counted from zero, or nowhere if `c` is its value. -/
def choice? (c : Operand) : Builtin → Option Nat
  | ifElse => some (if c.holds then 0 else 1)
  | and => if c.holds then some 0 else none
  | or => if c.holds then none else some 0
  | _ => none

def results (args : List Expr) : Builtin → List Expr
  | ifElse => args.tail
  | _ => args

theorem results_subset (b : Builtin) (args : List Expr) : b.results args ⊆ args := by
  cases b with
  | ifElse => exact fun _ => List.mem_of_mem_tail
  | _ => exact List.Subset.refl args

theorem rest_subset_results (b : Builtin) (first : Expr) (rest : List Expr) :
    rest ⊆ b.results (first :: rest) := by
  cases b with
  | ifElse => exact List.Subset.refl rest
  | _ => exact List.subset_cons_self first rest

theorem first_mem_results {b : Builtin} (lazily : b.isLazy) {c : Operand}
    (unchosen : b.choice? c = none) {first : Expr} (rest : List Expr) :
    first ∈ b.results (first :: rest) := by
  cases b with
  | and | or => exact List.mem_cons_self
  | _ => contradiction

end Builtin

namespace Expr

/-! ## Calls -/

section Calls
variable {functions : FunctionTable} {vars : Bindings} {name : String} {b : Builtin}

theorem eval_unknown (missing : functions.get? name = none) (args : List Expr) :
    eval functions vars (call name args) = .error (.unknownFunction name) := by
  rw [eval, missing]

theorem eval_eager (known : functions.get? name = some b) (eager : b.isLazy = false)
    (args : List Expr) :
    eval functions vars (call name args) = evalAll functions vars args >>= b.apply := by
  rw [eval, known]
  cases b with
  | ifElse | and | or => contradiction
  | _ => rfl

theorem eval_misfit (known : functions.get? name = some b) (lazily : b.isLazy)
    {args : List Expr} (misfit : b.arity.accepts args.length = false) :
    eval functions vars (call name args) = .error (.arity b.name b.arity args.length) := by
  rw [eval, known]
  cases b with
  | ifElse =>
    match args with
    | [] | [_] | [_, _] | _ :: _ :: _ :: _ :: _ => rfl
    | [_, _, _] => contradiction
  | and | or =>
    match args with
    | [] | [_] | _ :: _ :: _ :: _ => rfl
    | [_, _] => contradiction
  | _ => contradiction

theorem eval_lazy (known : functions.get? name = some b) (lazily : b.isLazy) {first : Expr}
    {rest : List Expr} (fits : b.arity.accepts (first :: rest).length) :
    eval functions vars (call name (first :: rest)) = (do
      let c ← eval functions vars first
      match b.choice? c with
      | none => .ok c
      | some i => (rest.map (eval functions vars))[i]?.getD (.ok c)) := by
  rw [eval, known]
  cases b with
  | ifElse =>
    obtain ⟨cond, yes, no, same⟩ := Arity.three_of_accepts fits
    obtain ⟨rfl, rfl⟩ := List.cons.inj same
    dsimp only
    rw [evalIf]
    congr 1
    funext c
    cases holds : c.holds with
    | true => simp [Builtin.choice?, holds]
    | false => simp [Builtin.choice?, holds]
  | and | or =>
    obtain ⟨lhs, rhs, same⟩ := Arity.two_of_accepts fits
    obtain ⟨rfl, rfl⟩ := List.cons.inj same
    dsimp only
    rw [evalChoice]
    congr 1
    funext c
    simp only [Builtin.choice?]
    cases c.holds with
    | true => rfl
    | false => rfl
  | _ => contradiction

theorem eval_settled (known : functions.get? name = some b) (lazily : b.isLazy) {first : Expr}
    {rest : List Expr} (fits : b.arity.accepts (first :: rest).length) {c : Operand}
    (settled : eval functions vars first = .ok c) :
    eval functions vars (call name (first :: rest)) =
      match b.choice? c with
      | none => .ok c
      | some i => (rest.map (eval functions vars))[i]?.getD (.ok c) := by
  rw [eval_lazy known lazily fits, settled]
  rfl

theorem exists_chosen {first : Expr} {rest : List Expr}
    (fits : b.arity.accepts (first :: rest).length) {c : Operand} {i : Nat}
    (choice : b.choice? c = some i) : ∃ e, rest[i]? = some e := by
  cases b with
  | ifElse =>
    obtain ⟨cond, yes, no, same⟩ := Arity.three_of_accepts fits
    obtain ⟨rfl, rfl⟩ := List.cons.inj same
    cases h : c.holds with
    | true =>
      obtain rfl : 0 = i := by simpa [Builtin.choice?, h] using choice
      exact ⟨yes, rfl⟩
    | false =>
      obtain rfl : 1 = i := by simpa [Builtin.choice?, h] using choice
      exact ⟨no, rfl⟩
  | and | or =>
    obtain ⟨lhs, rhs, same⟩ := Arity.two_of_accepts fits
    obtain ⟨rfl, rfl⟩ := List.cons.inj same
    have here : 0 = i := by cases holds : c.holds <;> simp_all [Builtin.choice?]
    exact ⟨rhs, by rw [← here]; rfl⟩
  | _ => contradiction

theorem exists_first (lazily : b.isLazy) {args : List Expr}
    (fits : b.arity.accepts args.length) : ∃ first rest, args = first :: rest := by
  cases args with
  | nil => cases b <;> contradiction
  | cons first rest => exact ⟨first, rest, rfl⟩

theorem result_of_lazy (known : functions.get? name = some b) (lazily : b.isLazy)
    {args : List Expr} {v : Operand} (evaluated : eval functions vars (call name args) = .ok v) :
    ∃ e ∈ b.results args, eval functions vars e = .ok v := by
  cases fits : b.arity.accepts args.length with
  | false =>
    rw [eval_misfit known lazily fits] at evaluated
    contradiction
  | true =>
    obtain ⟨first, rest, rfl⟩ := exists_first lazily fits
    cases settled : eval functions vars first with
    | error err =>
      rw [eval_lazy known lazily fits, settled] at evaluated
      contradiction
    | ok c =>
      rw [eval_settled known lazily fits settled] at evaluated
      cases choice : b.choice? c with
      | none =>
        have same : c = v := by simpa [choice] using evaluated
        exact ⟨first, Builtin.first_mem_results lazily choice rest, same ▸ settled⟩
      | some i =>
        obtain ⟨e, here⟩ := exists_chosen fits choice
        have later := Builtin.rest_subset_results b first rest (List.mem_of_getElem? here)
        exact ⟨e, later, by simpa [choice, here] using evaluated⟩

theorem argument_of_lazy (known : functions.get? name = some b) (lazily : b.isLazy)
    {args : List Expr} {v : Operand} (evaluated : eval functions vars (call name args) = .ok v) :
    ∃ e ∈ args, eval functions vars e = .ok v := by
  obtain ⟨e, mem, same⟩ := result_of_lazy known lazily evaluated
  exact ⟨e, b.results_subset args mem, same⟩

theorem evalAll_eq_mapM (args : List Expr) :
    evalAll functions vars args = args.mapM (eval functions vars) := by
  induction args with
  | nil => rfl
  | cons e es ih =>
    rw [evalAll, ih, List.mapM_cons]

end Calls

/-! ## What a value depends on -/

section Congruence
variable {functions further : FunctionTable} {vars others : Bindings}

theorem eval_call_congr {name : String} (shared : functions.get? name = further.get? name)
    {args brgs : List Expr}
    (same : args.map (eval functions vars) = brgs.map (eval further others)) :
    eval functions vars (call name args) = eval further others (call name brgs) := by
  have count : args.length = brgs.length := by simpa using congrArg List.length same
  cases known : functions.get? name with
  | none => rw [eval_unknown known, eval_unknown (shared ▸ known)]
  | some b =>
    have known' : further.get? name = some b := shared ▸ known
    cases lazily : b.isLazy with
    | false =>
      have results := congrArg (List.mapM id) same
      rw [List.mapM_map, List.mapM_map] at results
      rw [eval_eager known lazily, eval_eager known' lazily, evalAll_eq_mapM, evalAll_eq_mapM]
      exact congrArg (· >>= b.apply) results
    | true =>
      cases fits : b.arity.accepts args.length with
      | false =>
        rw [eval_misfit known lazily fits, eval_misfit known' lazily (count ▸ fits), count]
      | true =>
        obtain ⟨e, es, rfl⟩ := exists_first lazily fits
        obtain ⟨d, ds, rfl⟩ := exists_first lazily (count ▸ fits)
        obtain ⟨first, rest⟩ := List.cons.inj same
        rw [eval_lazy known lazily fits, eval_lazy known' lazily (count ▸ fits), first, rest]

/-- A calculation sees the table only through the calls in it, and its bindings only through the
    variables. -/
theorem eval_congr {e : Expr}
    (shared : ∀ name args, call name args ∈ e.nodes → functions.get? name = further.get? name)
    (agree : ∀ name, var name ∈ e.nodes → vars.lookup name = others.lookup name) :
    eval functions vars e = eval further others e := by
  induction e with
  | number x => rfl
  | var name =>
    have here := agree name (by simp [nodes])
    rw [eval, eval, here]
  | negate e ih =>
    have below := ih (fun name args mem => shared name args (by simp [nodes, mem]))
      fun name mem => agree name (by simp [nodes, mem])
    rw [eval, eval, below]
  | binary op lhs rhs left right =>
    have first := left (fun name args mem => shared name args (by simp [nodes, mem]))
      fun name mem => agree name (by simp [nodes, mem])
    have second := right (fun name args mem => shared name args (by simp [nodes, mem]))
      fun name mem => agree name (by simp [nodes, mem])
    rw [eval, eval, first, second]
  | call name args each =>
    apply eval_call_congr (shared name args (by simp [nodes]))
    apply List.map_congr_left
    intro e mem
    apply each e mem
    · intro name args inside
      exact shared name args (mem_nodes_call mem inside)
    · intro name inside
      exact agree name (mem_nodes_call mem inside)

variable {ctx : Context}

theorem eval_of_resolves {ns : List Expr} {e : Expr} (all : Resolves functions ctx vars ns)
    (within : e.nodes ⊆ ns) (bound : bind functions ctx e = .ok others) :
    eval functions vars e = eval functions others e := by
  apply eval_congr fun _ _ _ => rfl
  intro name mem
  exact all.lookup_congr (resolves_bind bound) rfl (within mem) mem

end Congruence

/-! ## Values in a context -/

section InContext
variable (functions : FunctionTable) (ctx : Context)

def Binds (e : Expr) : Prop := ∃ vars, bind functions ctx e = .ok vars

/-- What a calculation comes to in a context, before it is taken as an amount. -/
def value (e : Expr) : Except ExprError Operand := do
  let vars ← bind functions ctx e
  eval functions vars e

theorem amount_eq_value (e : Expr) :
    amount functions ctx e = (do
      match ← value functions ctx e with
      | .number x => if x.isFinite then .ok x else .error (.nonFinite x)
      | .bool _ => .error .nonNumeric) := by
  unfold amount value
  cases bind functions ctx e with
  | error err => rfl
  | ok vars => rfl

variable {functions ctx}

theorem isFinite_of_amount {e : Expr} {x : Binary64} (paid : amount functions ctx e = .ok x) :
    x.isFinite := by
  rw [amount_eq_value] at paid
  obtain ⟨v, -, paid⟩ := bind_eq_ok_iff.mp paid
  cases v with
  | bool b => contradiction
  | number y =>
    dsimp only at paid
    split at paid
    · next bounded =>
      obtain rfl := Except.ok.inj paid
      exact bounded
    · contradiction

theorem isFinite_of_evaluate {text : String} {x : Binary64}
    (paid : evaluate functions ctx text = .ok x) : x.isFinite := by
  obtain ⟨e, -, paid⟩ := bind_eq_ok_iff.mp paid
  exact isFinite_of_amount paid

theorem amount_of_refused {e : Expr} {err : ExprError}
    (refused : bind functions ctx e = .error err) : amount functions ctx e = .error err := by
  rw [amount, refused]
  rfl

theorem value_of_bind {vars : Bindings} {e : Expr} (bound : bind functions ctx e = .ok vars) :
    value functions ctx e = eval functions vars e := by
  rw [value, bound]
  rfl

theorem value_congr {further : FunctionTable} {other : Context} {e d : Expr}
    (refused : failure? (bind functions ctx e) = failure? (bind further other d))
    (computed : ∀ vars others, bind functions ctx e = .ok vars → bind further other d = .ok others →
      eval functions vars e = eval further others d) :
    value functions ctx e = value further other d := by
  cases bound : bind functions ctx e with
  | error err =>
    rw [bound] at refused
    have bound' := failure?_eq_some_iff.mp refused.symm
    rw [value, value, bound, bound']
    rfl
  | ok vars =>
    rw [bound] at refused
    obtain ⟨others, bound'⟩ := failure?_eq_none_iff.mp refused.symm
    rw [value_of_bind bound, value_of_bind bound', computed vars others bound bound']

theorem binds_iff {e : Expr} :
    Binds functions ctx e ↔ ∀ node ∈ e.nodes, fault? functions ctx node = none := by
  rw [Binds, ← failure?_eq_none_iff, failure?_bindings, List.findSome?_eq_none_iff]

theorem binds_binary_iff {op : BinaryOp} {lhs rhs : Expr} :
    Binds functions ctx (binary op lhs rhs) ↔
      Binds functions ctx lhs ∧ Binds functions ctx rhs := by
  simp only [binds_iff, nodes, List.forall_mem_cons, List.forall_mem_append]
  exact and_iff_right rfl

/-- Of the arguments of a call only their number counts, and that each is accepted. -/
theorem binds_call_iff {name : String} {args : List Expr} :
    Binds functions ctx (call name args) ↔
      failure? (checkCall functions name args.length) = none ∧
        ∀ e ∈ args, Binds functions ctx e := by
  simp only [binds_iff, nodes, List.forall_mem_cons, mem_nodesOfAll]
  constructor
  · rintro ⟨checked, below⟩
    exact ⟨checked, fun e mem node inside => below node ⟨e, mem, inside⟩⟩
  · rintro ⟨checked, each⟩
    refine ⟨checked, fun node among => ?_⟩
    obtain ⟨e, mem, inside⟩ := among
    exact each e mem node inside

end InContext

end Expr
end Commission
