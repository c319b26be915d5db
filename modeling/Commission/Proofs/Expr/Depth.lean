import Commission.Proofs.Expr.Values

/-!
How deep the two phases of an evaluation recurse. Both call themselves only on the parts of the
calculation in hand, so their calls nest along a path of nodes from the root down. Running them with
room for as many nested calls as the longest path has nodes gives what they give without a limit.
Main statements: `bindWithin_eq` and `evalWithin_eq`.
-/
namespace Commission.Expr

/-! ## Paths -/

def parts : Expr → List Expr
  | number _ | var _ => []
  | negate e => [e]
  | binary _ lhs rhs => [lhs, rhs]
  | call _ args => args

theorem nodes_eq (e : Expr) : e.nodes = e :: e.parts.flatMap nodes := by
  cases e with
  | number x => rfl
  | var name => rfl
  | negate e => simp [nodes, parts]
  | binary op lhs rhs => simp [nodes, parts]
  | call name args => rw [nodes, nodesOfAll_eq, parts]

/-- The nodes from a calculation down to one inside it, which need not be a leaf. -/
inductive Path : Expr → List Expr → Prop where
  | stop (e : Expr) : Path e [e]
  | down {e part : Expr} {below : List Expr} (mem : part ∈ e.parts) (path : Path part below) :
      Path e (e :: below)

theorem Path.length_le {e : Expr} {path : List Expr} (h : Path e path) :
    path.length ≤ e.nodes.length := by
  induction h with
  | stop e => simp [nodes_eq e]
  | @down e part below mem path ih =>
    obtain ⟨before, after, split⟩ := List.append_of_mem mem
    rw [nodes_eq e, split]
    simp only [List.length_cons, List.flatMap_append, List.flatMap_cons, List.length_append]
    omega

/-! ## Runs with limited room -/

abbrev Limited (α : Type) : Type := ExceptT ExprError Option α

def settled {α : Type} (outcome : Except ExprError α) : Limited α := ExceptT.mk (some outcome)

theorem settled_bind {α β : Type} (outcome : Except ExprError α)
    (next : α → Except ExprError β) :
    (settled outcome >>= fun a => settled (next a)) = settled (outcome >>= next) := by
  cases outcome <;> rfl

theorem settled_pure {α : Type} (a : α) : (pure a : Limited α) = settled (.ok a) := rfl

theorem mapM_settled {α β : Type} {again : α → Limited β} {f : α → Except ExprError β}
    {xs : List α} (agree : ∀ x ∈ xs, again x = settled (f x)) :
    xs.mapM again = settled (xs.mapM f) := by
  induction xs with
  | nil => rfl
  | cons x xs ih =>
    rw [List.mapM_cons, List.mapM_cons, agree x (by simp), ih fun y mem => agree y (by simp [mem])]
    simp only [settled_pure, settled_bind]
    rfl

/-- Calls nested at most `room` deep; `step` is one call, with the calls it makes as a parameter. -/
def within {α : Type} (step : (Expr → Limited α) → Expr → Limited α) : Nat → Expr → Limited α
  | 0, _ => ExceptT.mk none
  | room + 1, e => step (within step room) e

/-- A step that is a call of `f` as long as its own calls, all of them on parts, are. -/
def Follows {α : Type} (step : (Expr → Limited α) → Expr → Limited α)
    (f : Expr → Except ExprError α) : Prop :=
  ∀ again e, (∀ part ∈ e.parts, again part = settled (f part)) → step again e = settled (f e)

/-- Room for the longest path is room enough. -/
theorem within_eq {α : Type} {step : (Expr → Limited α) → Expr → Limited α}
    {f : Expr → Except ExprError α} (follows : Follows step f) {room : Nat} {e : Expr}
    (short : ∀ path, Path e path → path.length ≤ room) : within step room e = settled (f e) := by
  induction room generalizing e with
  | zero =>
    have one := short [e] (.stop e)
    simp at one
  | succ room ih =>
    rw [within]
    apply follows
    intro part mem
    apply ih
    intro path below
    have longer := short (e :: path) (.down mem below)
    simpa using longer

variable {functions : FunctionTable} {ctx : Context} {vars : Bindings}

/-! ## The first phase -/

variable (functions ctx) in
def bindStep (again : Expr → Limited Bindings) : Expr → Limited Bindings
  | number _ => settled (.ok [])
  | var name => do
    let value ← settled (resolve functions ctx name)
    return [(name, value)]
  | negate e => again e
  | binary _ lhs rhs => do
    let left ← again lhs
    let right ← again rhs
    return left ++ right
  | call name args => do
    settled (checkCall functions name args.length)
    let all ← args.mapM again
    return all.flatten

theorem bindAll_eq_mapM (args : List Expr) :
    bindAll functions ctx args = args.mapM (bind functions ctx) >>= fun all => .ok all.flatten := by
  induction args with
  | nil => rfl
  | cons e es ih =>
    rw [bindAll, ih, List.mapM_cons]
    cases bind functions ctx e with
    | error err => rfl
    | ok first => cases es.mapM (bind functions ctx) <;> rfl

theorem follows_bind : Follows (bindStep functions ctx) (bind functions ctx) := by
  intro again e agree
  cases e with
  | number x => rfl
  | var name =>
    rw [bindStep, bind]
    simp only [settled_pure, settled_bind]
    rfl
  | negate e => exact agree e (by simp [parts])
  | binary op lhs rhs =>
    rw [bindStep, bind, agree lhs (by simp [parts]), agree rhs (by simp [parts])]
    simp only [settled_pure, settled_bind]
    rfl
  | call name args =>
    have all : args.mapM again = settled (args.mapM (bind functions ctx)) := mapM_settled agree
    rw [bindStep, bind, bindAll_eq_mapM, all]
    simp only [settled_pure, settled_bind]

variable (functions ctx) in
def bindWithin : Nat → Expr → Limited Bindings := within (bindStep functions ctx)

theorem bindWithin_eq {room : Nat} {e : Expr}
    (short : ∀ path, Path e path → path.length ≤ room) :
    bindWithin functions ctx room e = settled (bind functions ctx e) :=
  within_eq follows_bind short

/-! ## The second phase -/

def ifStep (again : Expr → Limited Operand) : List Expr → Limited Operand
  | [cond, yes, no] => do
    let c ← again cond
    if c.holds then again yes else again no
  | args => settled (.error (.arity Builtin.ifElse.name Builtin.ifElse.arity args.length))

def choiceStep (b : Builtin) (settles : Bool) (again : Expr → Limited Operand) :
    List Expr → Limited Operand
  | [lhs, rhs] => do
    let x ← again lhs
    if x.holds = settles then return x else again rhs
  | args => settled (.error (.arity b.name b.arity args.length))

variable (functions vars) in
def evalStep (again : Expr → Limited Operand) : Expr → Limited Operand
  | number x => settled (Operand.finite x)
  | var name =>
    match vars.lookup name with
    | some value => settled (.ok value)
    | none => settled (.error (.unknownVariable name))
  | negate e => do
    let value ← again e
    settled (Operand.finite value.toNumber.neg)
  | binary op lhs rhs => do
    let x ← again lhs
    let y ← again rhs
    settled (arithmetic op x.toNumber y.toNumber)
  | call name args =>
    match functions.get? name with
    | none => settled (.error (.unknownFunction name))
    | some .ifElse => ifStep again args
    | some .and => choiceStep .and false again args
    | some .or => choiceStep .or true again args
    | some b => do
      let values ← args.mapM again
      settled (b.apply values)

section Lazy
variable {again : Expr → Limited Operand}

theorem ifStep_eq {args : List Expr}
    (agree : ∀ arg ∈ args, again arg = settled (eval functions vars arg)) :
    ifStep again args = settled (evalIf functions vars args) := by
  unfold ifStep
  split
  · next cond yes no =>
    rw [evalIf, agree cond (by simp), agree yes (by simp), agree no (by simp), ← settled_bind]
    congr 1
    funext c
    split <;> rfl
  · next other =>
    rw [evalIf]
    exact other

theorem choiceStep_eq (b : Builtin) (settles : Bool) {args : List Expr}
    (agree : ∀ arg ∈ args, again arg = settled (eval functions vars arg)) :
    choiceStep b settles again args = settled (evalChoice functions vars b settles args) := by
  unfold choiceStep
  split
  · next lhs rhs =>
    rw [evalChoice, agree lhs (by simp), agree rhs (by simp), ← settled_bind]
    congr 1
    funext x
    split <;> rfl
  · next other =>
    rw [evalChoice]
    exact other

end Lazy

theorem follows_eval : Follows (evalStep functions vars) (eval functions vars) := by
  intro again e agree
  cases e with
  | number x => rfl
  | var name =>
    rw [evalStep, eval]
    cases vars.lookup name <;> rfl
  | negate e =>
    rw [evalStep, eval, agree e (by simp [parts])]
    exact settled_bind _ _
  | binary op lhs rhs =>
    rw [evalStep, eval, agree lhs (by simp [parts]), agree rhs (by simp [parts])]
    simp only [settled_bind]
  | call name args =>
    rw [evalStep, eval]
    cases functions.get? name with
    | none => rfl
    | some b =>
      cases b with
      | ifElse => exact ifStep_eq agree
      | and => exact choiceStep_eq .and false agree
      | or => exact choiceStep_eq .or true agree
      | _ =>
        have all : args.mapM again = settled (args.mapM (eval functions vars)) :=
          mapM_settled agree
        dsimp only
        rw [evalAll_eq_mapM, all]
        exact settled_bind _ _

variable (functions vars) in
def evalWithin : Nat → Expr → Limited Operand := within (evalStep functions vars)

theorem evalWithin_eq {room : Nat} {e : Expr}
    (short : ∀ path, Path e path → path.length ≤ room) :
    evalWithin functions vars room e = settled (eval functions vars e) :=
  within_eq follows_eval short

end Commission.Expr
