import Commission.Proofs.Expr.Values

/-!
The parts of a calculation that its evaluation visits. The second phase fails exactly if a part that
it visits fails by itself, and with the error of that part. Main statement: `eval_eq_error_iff`.
-/
namespace Commission.Expr

section Visits
variable (functions : FunctionTable) (vars : Bindings)

/-- Evaluating the first calculation evaluates the second one on the way: operands from left to
    right as long as they have values, and of a lazy call the first argument and what it chooses. -/
inductive Visits : Expr → Expr → Prop where
  | self (e : Expr) : Visits e e
  | negated {e d : Expr} (inside : Visits e d) : Visits (negate e) d
  | left {op : BinaryOp} {lhs rhs d : Expr} (inside : Visits lhs d) : Visits (binary op lhs rhs) d
  | right {op : BinaryOp} {lhs rhs d : Expr} {x : Operand}
      (first : eval functions vars lhs = .ok x) (inside : Visits rhs d) :
      Visits (binary op lhs rhs) d
  | argument {name : String} {b : Builtin} {before after : List Expr} {e d : Expr}
      (known : functions.get? name = some b) (eager : b.isLazy = false)
      (earlier : ∀ a ∈ before, ∃ v, eval functions vars a = .ok v) (inside : Visits e d) :
      Visits (call name (before ++ e :: after)) d
  | selector {name : String} {b : Builtin} {first : Expr} {rest : List Expr} {d : Expr}
      (known : functions.get? name = some b) (lazily : b.isLazy)
      (fits : b.arity.accepts (first :: rest).length) (inside : Visits first d) :
      Visits (call name (first :: rest)) d
  | chosen {name : String} {b : Builtin} {first : Expr} {rest : List Expr} {c : Operand} {i : Nat}
      {e d : Expr} (known : functions.get? name = some b) (lazily : b.isLazy)
      (fits : b.arity.accepts (first :: rest).length) (settled : eval functions vars first = .ok c)
      (choice : b.choice? c = some i) (here : rest[i]? = some e) (inside : Visits e d) :
      Visits (call name (first :: rest)) d

/-- The part fails by itself: what it needs from its own parts has values. -/
inductive Raises : Expr → ExprError → Prop where
  | number {x : Binary64} {err : ExprError} (failed : Operand.finite x = .error err) :
      Raises (number x) err
  | unbound {name : String} (missing : vars.lookup name = none) :
      Raises (var name) (.unknownVariable name)
  | negation {e : Expr} {v : Operand} {err : ExprError} (operand : eval functions vars e = .ok v)
      (failed : Operand.finite v.toNumber.neg = .error err) : Raises (negate e) err
  | operation {op : BinaryOp} {lhs rhs : Expr} {x y : Operand} {err : ExprError}
      (left : eval functions vars lhs = .ok x) (right : eval functions vars rhs = .ok y)
      (failed : arithmetic op x.toNumber y.toNumber = .error err) : Raises (binary op lhs rhs) err
  | function {name : String} {b : Builtin} {args : List Expr} {values : List Operand}
      {err : ExprError} (known : functions.get? name = some b) (eager : b.isLazy = false)
      (operands : evalAll functions vars args = .ok values) (failed : b.apply values = .error err) :
      Raises (call name args) err
  | unknown {name : String} {args : List Expr} (missing : functions.get? name = none) :
      Raises (call name args) (.unknownFunction name)
  | misfit {name : String} {b : Builtin} {args : List Expr} (known : functions.get? name = some b)
      (lazily : b.isLazy) (misfit : b.arity.accepts args.length = false) :
      Raises (call name args) (.arity b.name b.arity args.length)

variable {functions vars}

theorem evalAll_eq_error_iff {args : List Expr} {err : ExprError} :
    evalAll functions vars args = .error err ↔ ∃ before e after, args = before ++ e :: after ∧
      (∀ a ∈ before, ∃ v, eval functions vars a = .ok v) ∧ eval functions vars e = .error err := by
  rw [evalAll_eq_mapM, mapM_eq_error_iff]

theorem eval_error_of_visits {e d : Expr} {err : ExprError} (visits : Visits functions vars e d)
    (failed : eval functions vars d = .error err) : eval functions vars e = .error err := by
  induction visits with
  | self e => exact failed
  | negated inside ih =>
    rw [eval, ih failed]
    rfl
  | left inside ih =>
    rw [eval, ih failed]
    rfl
  | right first inside ih =>
    rw [eval, first, ih failed]
    rfl
  | @argument name b before after arg d known eager earlier inside ih =>
    have all := evalAll_eq_error_iff.mpr ⟨before, arg, after, rfl, earlier, ih failed⟩
    rw [eval_eager known eager, all]
    rfl
  | selector known lazily fits inside ih =>
    rw [eval_lazy known lazily fits, ih failed]
    rfl
  | chosen known lazily fits settled choice here inside ih =>
    rw [eval_settled known lazily fits settled, choice]
    simp [here, ih failed]

theorem eval_error_of_raises {d : Expr} {err : ExprError} (raises : Raises functions vars d err) :
    eval functions vars d = .error err := by
  cases raises with
  | number failed => exact failed
  | unbound missing => rw [eval, missing]
  | negation operand failed =>
    rw [eval, operand]
    exact failed
  | operation left right failed =>
    rw [eval, left, right]
    exact failed
  | function known eager operands failed =>
    rw [eval_eager known eager, operands]
    exact failed
  | unknown missing => exact eval_unknown missing _
  | misfit known lazily misfit => exact eval_misfit known lazily misfit

section Calls
variable {name : String} {b : Builtin} {args : List Expr} {err : ExprError}
  (known : functions.get? name = some b)
  (each : ∀ e ∈ args, eval functions vars e = .error err →
    ∃ d, Visits functions vars e d ∧ Raises functions vars d err)
  (failed : eval functions vars (call name args) = .error err)

include known each failed

theorem exists_raises_eager (eager : b.isLazy = false) :
    ∃ d, Visits functions vars (call name args) d ∧ Raises functions vars d err := by
  rw [eval_eager known eager] at failed
  rcases bind_fails_iff.mp failed with inner | ⟨values, operands, own⟩
  · obtain ⟨before, arg, after, rfl, earlier, inner⟩ := evalAll_eq_error_iff.mp inner
    obtain ⟨d, visits, raises⟩ := each arg (by simp) inner
    exact ⟨d, .argument known eager earlier visits, raises⟩
  · exact ⟨call name args, .self _, .function known eager operands own⟩

theorem exists_raises_lazy (lazily : b.isLazy) :
    ∃ d, Visits functions vars (call name args) d ∧ Raises functions vars d err := by
  cases fits : b.arity.accepts args.length with
  | false =>
    rw [eval_misfit known lazily fits] at failed
    obtain rfl := Except.error.inj failed
    exact ⟨call name args, .self _, .misfit known lazily fits⟩
  | true =>
    obtain ⟨first, rest, rfl⟩ := exists_first lazily fits
    cases settled : eval functions vars first with
    | error inner =>
      rw [eval_lazy known lazily fits, settled] at failed
      obtain rfl := Except.error.inj failed
      obtain ⟨d, visits, raises⟩ := each first (by simp) settled
      exact ⟨d, .selector known lazily fits visits, raises⟩
    | ok c =>
      rw [eval_settled known lazily fits settled] at failed
      cases choice : b.choice? c with
      | none => simp [choice] at failed
      | some i =>
        obtain ⟨e, here⟩ := exists_chosen fits choice
        have inner : eval functions vars e = .error err := by simpa [choice, here] using failed
        obtain ⟨d, visits, raises⟩ := each e (by simp [List.mem_of_getElem? here]) inner
        exact ⟨d, .chosen known lazily fits settled choice here visits, raises⟩

end Calls

theorem exists_raises {e : Expr} {err : ExprError} (failed : eval functions vars e = .error err) :
    ∃ d, Visits functions vars e d ∧ Raises functions vars d err := by
  induction e with
  | number x => exact ⟨number x, .self _, .number failed⟩
  | var name =>
    unfold eval at failed
    split at failed
    · contradiction
    · next missing =>
      obtain rfl := Except.error.inj failed
      exact ⟨var name, .self _, .unbound missing⟩
  | negate e ih =>
    rcases bind_fails_iff.mp failed with inner | ⟨v, operand, own⟩
    · obtain ⟨d, visits, raises⟩ := ih inner
      exact ⟨d, .negated visits, raises⟩
    · exact ⟨negate e, .self _, .negation operand own⟩
  | binary op lhs rhs left right =>
    rcases bind_fails_iff.mp failed with inner | ⟨x, first, rest⟩
    · obtain ⟨d, visits, raises⟩ := left inner
      exact ⟨d, .left visits, raises⟩
    · rcases bind_fails_iff.mp rest with inner | ⟨y, second, own⟩
      · obtain ⟨d, visits, raises⟩ := right inner
        exact ⟨d, .right first visits, raises⟩
      · exact ⟨binary op lhs rhs, .self _, .operation first second own⟩
  | call name args each =>
    cases known : functions.get? name with
    | none =>
      rw [eval_unknown known] at failed
      obtain rfl := Except.error.inj failed
      exact ⟨call name args, .self _, .unknown known⟩
    | some b =>
      cases lazily : b.isLazy with
      | false => exact exists_raises_eager known each failed lazily
      | true => exact exists_raises_lazy known each failed lazily

/-- Evaluation fails exactly if a part that it visits fails by itself. -/
theorem eval_eq_error_iff {e : Expr} {err : ExprError} :
    eval functions vars e = .error err ↔
      ∃ d, Visits functions vars e d ∧ Raises functions vars d err := by
  constructor
  · exact exists_raises
  · rintro ⟨d, visits, raises⟩
    exact eval_error_of_visits visits (eval_error_of_raises raises)

end Visits

end Commission.Expr
