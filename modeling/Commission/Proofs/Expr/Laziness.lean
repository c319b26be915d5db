import Commission.Proofs.Expr.Values

/-!
An argument that a lazy call does not choose has no part in the value of the calculation around it,
whatever it would come to itself. Main statement: `idle_irrelevant`.
-/
namespace Commission.Expr

/-! ## Places -/

inductive Place where
  | here
  | negate (inner : Place)
  | left (op : BinaryOp) (inner : Place) (rhs : Expr)
  | right (op : BinaryOp) (lhs : Expr) (inner : Place)
  | argument (name : String) (before : List Expr) (inner : Place) (after : List Expr)

namespace Place

def fill : Place → Expr → Expr
  | here, e => e
  | negate inner, e => .negate (inner.fill e)
  | left op inner rhs, e => .binary op (inner.fill e) rhs
  | right op lhs inner, e => .binary op lhs (inner.fill e)
  | argument name before inner after, e => .call name (before ++ inner.fill e :: after)

theorem nodes_subset_fill (p : Place) (e : Expr) : e.nodes ⊆ (p.fill e).nodes := by
  intro node mem
  induction p with
  | here => exact mem
  | negate inner ih => simp [fill, nodes, ih]
  | left op inner rhs ih => simp [fill, nodes, ih]
  | right op lhs inner ih => simp [fill, nodes, ih]
  | argument name before inner after ih => exact mem_nodes_call (by simp) ih

section Replacement
variable {functions : FunctionTable} {e f : Expr}

theorem binds_inside {ctx : Context} (p : Place) (outer : Binds functions ctx (p.fill e)) :
    Binds functions ctx e := by
  rw [binds_iff] at outer ⊢
  intro node mem
  exact outer node (p.nodes_subset_fill e mem)

theorem binds_fill {ctx : Context} (p : Place) (outer : Binds functions ctx (p.fill e))
    (inner : Binds functions ctx f) : Binds functions ctx (p.fill f) := by
  induction p with
  | here => exact inner
  | negate p ih => exact ih outer
  | left op p rhs ih =>
    obtain ⟨first, second⟩ := binds_binary_iff.mp outer
    exact binds_binary_iff.mpr ⟨ih first, second⟩
  | right op lhs p ih =>
    obtain ⟨first, second⟩ := binds_binary_iff.mp outer
    exact binds_binary_iff.mpr ⟨first, ih second⟩
  | argument name before p after ih =>
    obtain ⟨checked, each⟩ := binds_call_iff.mp outer
    refine binds_call_iff.mpr ⟨by simpa using checked, ?_⟩
    intro arg mem
    rcases List.mem_append.mp mem with early | late
    · exact each arg (by simp [early])
    · rcases List.mem_cons.mp late with rfl | late
      · exact ih (each (p.fill e) (by simp))
      · exact each arg (by simp [late])

theorem eval_fill_congr {vars : Bindings} (p : Place)
    (same : eval functions vars e = eval functions vars f) :
    eval functions vars (p.fill e) = eval functions vars (p.fill f) := by
  induction p with
  | here => exact same
  | negate p ih => rw [fill, fill, eval, eval, ih]
  | left op p rhs ih => rw [fill, fill, eval, eval, ih]
  | right op lhs p ih => rw [fill, fill, eval, eval, ih]
  | argument name before p after ih =>
    apply eval_call_congr rfl
    simp [ih]

end Replacement

end Place

/-! ## Idle arguments -/

/-- The open place is an argument of a lazy call whose first argument, by what it comes to in the
    context, does not choose it. -/
inductive Idle (functions : FunctionTable) (ctx : Context) : Place → Prop where
  | argument {name : String} {first : Expr} {between after : List Expr} {b : Builtin} {c : Operand}
      (known : functions.get? name = some b) (lazily : b.isLazy)
      (settled : value functions ctx first = .ok c) (unchosen : b.choice? c ≠ some between.length) :
      Idle functions ctx (.argument name (first :: between) .here after)

section Idle
variable {functions : FunctionTable} {vars : Bindings}

theorem getElem?_elsewhere {before after : List Expr} {x y : Expr} {i : Nat}
    (elsewhere : i ≠ before.length) : (before ++ x :: after)[i]? = (before ++ y :: after)[i]? := by
  by_cases early : i < before.length
  · rw [List.getElem?_append_left early, List.getElem?_append_left early]
  · obtain ⟨j, rfl⟩ : ∃ j, i = before.length + (j + 1) := ⟨i - before.length - 1, by omega⟩
    simp [List.getElem?_append_right]

theorem eval_unchosen {name : String} {b : Builtin} {c : Operand} {first x y : Expr}
    {between after : List Expr} (known : functions.get? name = some b) (lazily : b.isLazy)
    (settled : eval functions vars first = .ok c) (unchosen : b.choice? c ≠ some between.length) :
    eval functions vars (call name (first :: (between ++ x :: after))) =
      eval functions vars (call name (first :: (between ++ y :: after))) := by
  have count : (first :: (between ++ x :: after)).length =
      (first :: (between ++ y :: after)).length := by simp
  cases fits : b.arity.accepts (first :: (between ++ x :: after)).length with
  | false => rw [eval_misfit known lazily fits, eval_misfit known lazily (count ▸ fits), count]
  | true =>
    rw [eval_settled known lazily fits settled, eval_settled known lazily (count ▸ fits) settled]
    cases choice : b.choice? c with
    | none => rfl
    | some i =>
      have elsewhere : i ≠ between.length := fun same => unchosen (same ▸ choice)
      simp only [List.getElem?_map, getElem?_elsewhere (x := x) (y := y) elsewhere]

theorem eval_fill_idle {ctx : Context} {branch : Place} {ns : List Expr} {x : Expr}
    (idle : Idle functions ctx branch) (all : Resolves functions ctx vars ns)
    (within : (branch.fill x).nodes ⊆ ns) (y : Expr) :
    eval functions vars (branch.fill x) = eval functions vars (branch.fill y) := by
  cases idle with
  | @argument name first between after b c known lazily settled unchosen =>
    have inside : first.nodes ⊆ ns := by
      intro node mem
      apply within
      exact mem_nodes_call (by simp) mem
    obtain ⟨own, bound, evaluated⟩ := bind_eq_ok_iff.mp settled
    have here : eval functions vars first = .ok c :=
      (eval_of_resolves all inside bound).trans evaluated
    exact eval_unchosen known lazily here unchosen

end Idle

/-- What an argument that is not chosen comes to, or whether it fails, does not show in the value of
    a calculation around it. -/
theorem idle_irrelevant (functions : FunctionTable) (ctx : Context) (p branch : Place) (x y : Expr)
    (idle : Idle functions ctx branch) (bound : Binds functions ctx (p.fill (branch.fill x)))
    (other : Binds functions ctx y) :
    Binds functions ctx (p.fill (branch.fill y)) ∧
    value functions ctx (p.fill (branch.fill y)) = value functions ctx (p.fill (branch.fill x)) ∧
    amount functions ctx (p.fill (branch.fill y)) =
      amount functions ctx (p.fill (branch.fill x)) := by
  have call : Binds functions ctx (branch.fill y) := branch.binds_fill (p.binds_inside bound) other
  have whole : Binds functions ctx (p.fill (branch.fill y)) := p.binds_fill bound call
  obtain ⟨vars, before⟩ := bound
  obtain ⟨others, after⟩ := whole
  -- The bindings of both calculations together serve each of them as its own.
  have all := (resolves_bind before).append (resolves_bind after)
  have first := eval_of_resolves all (List.subset_append_left _ _) before
  have second := eval_of_resolves all (List.subset_append_right _ _) after
  have within : (branch.fill x).nodes ⊆
      (p.fill (branch.fill x)).nodes ++ (p.fill (branch.fill y)).nodes := by
    intro node mem
    exact List.mem_append_left _ (p.nodes_subset_fill _ mem)
  have same := p.eval_fill_congr (eval_fill_idle idle all within y)
  have values : value functions ctx (p.fill (branch.fill y)) =
      value functions ctx (p.fill (branch.fill x)) := by
    rw [value_of_bind before, value_of_bind after, ← first, ← second, same]
  refine ⟨⟨others, after⟩, values, ?_⟩
  rw [amount_eq_value, amount_eq_value, values]

def guarded : Place := .right .add (number (Binary64.ofInt 1)) .here

def guardedBranch : Place := .argument "if" [var "x"] .here [number (Binary64.ofInt 7)]

def quotient : Expr := binary .div (number (Binary64.ofInt 1)) (var "x")

/-- Ten to the power of four hundred is beyond the largest double. -/
def oversizedPower : Expr := call "pow" [number (Binary64.ofInt 10), number (Binary64.ofInt 400)]

def zeroContext : Context := .ofList [("x", .scalar (.int 0))]

theorem idle_irrelevant_guarded :
    Idle .standard zeroContext guardedBranch ∧
    amount .standard zeroContext quotient = .error .divisionByZero ∧
    Binds .standard zeroContext oversizedPower ∧
    amount .standard zeroContext (guarded.fill (guardedBranch.fill quotient)) =
      .ok (Binary64.ofInt 8) ∧
    amount .standard zeroContext (guarded.fill (guardedBranch.fill oversizedPower)) =
      .ok (Binary64.ofInt 8) := by
  have settled : value .standard zeroContext (var "x") = .ok (.number .zero) := by
    apply toOption_eq_some_iff.mp
    decide +kernel
  have idle : Idle .standard zeroContext guardedBranch :=
    .argument (b := .ifElse) rfl rfl settled (by decide)
  have failed : amount .standard zeroContext quotient = .error .divisionByZero := by
    apply failure?_eq_some_iff.mp
    decide +kernel
  have amounts : amount .standard zeroContext (guarded.fill (guardedBranch.fill quotient)) =
      .ok (Binary64.ofInt 8) := by
    apply toOption_eq_some_iff.mp
    decide +kernel
  have bound : Binds .standard zeroContext (guarded.fill (guardedBranch.fill quotient)) := by
    rw [binds_iff]
    decide +kernel
  have other : Binds .standard zeroContext oversizedPower := by
    rw [binds_iff]
    decide +kernel
  have same := (idle_irrelevant .standard zeroContext guarded guardedBranch quotient oversizedPower
    idle bound other).2.2
  exact ⟨idle, failed, other, amounts, same.trans amounts⟩

end Commission.Expr
