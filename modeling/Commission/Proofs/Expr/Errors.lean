import Commission.Proofs.Expr.Computing

/-!
Where the errors of a calculation come from. Binding and computing never report that the text could
not be read, so such an error of an evaluation is the answer of the reader.
-/
namespace Commission

def ExprError.OfReading : ExprError → Prop
  | .malformed .. | .tooLong _ => True
  | _ => False

namespace Expr

def Computes {α : Type} (step : Except ExprError α) : Prop :=
  ∀ e, step = .error e → ¬ e.OfReading

theorem not_ofReading_of_ofComputing {e : ExprError} (computing : e.OfComputing) :
    ¬ e.OfReading := by
  cases e <;> simp_all [ExprError.OfComputing, ExprError.OfReading]

theorem computes_bindings (functions : FunctionTable) (ctx : Context) (e : Expr) :
    Computes (bind functions ctx e) := by
  intro err failed
  obtain ⟨-, node, -, -, -, offends⟩ := (bind_eq_error_iff functions ctx).mp failed
  cases offends <;> exact not_false

theorem computes_amount (functions : FunctionTable) (ctx : Context) (e : Expr) :
    Computes (amount functions ctx e) := by
  apply failsWith_bind (computes_bindings functions ctx e)
  intro vars bound
  apply failsWith_bind
  · intro err failed
    exact not_ofReading_of_ofComputing (ofComputing_of_bind bound err failed)
  · intro value _
    split
    · split
      · exact failsWith_ok _
      · exact failsWith_error not_false
    · exact failsWith_error not_false

theorem evaluate_ofReading_iff (functions : FunctionTable) (ctx : Context) (text : String)
    {e : ExprError} (reading : e.OfReading) :
    evaluate functions ctx text = .error e ↔ parse text = .error e := by
  cases read : parse text with
  | error f => simp [evaluate, read, Bind.bind, Except.bind]
  | ok tree =>
    simp only [evaluate, read, Bind.bind, Except.bind]
    constructor
    · intro failed
      exact absurd reading (computes_amount functions ctx tree e failed)
    · intro h
      contradiction

theorem evaluate_tooLong_iff (functions : FunctionTable) (ctx : Context) (text : String)
    (bytes : Nat) :
    evaluate functions ctx text = .error (.tooLong bytes) ↔ parse text = .error (.tooLong bytes) :=
  evaluate_ofReading_iff functions ctx text trivial

theorem evaluate_malformed_iff (functions : FunctionTable) (ctx : Context) (text : String)
    (offset : Nat) (wanted : List Wanted) :
    evaluate functions ctx text = .error (.malformed offset wanted) ↔
      parse text = .error (.malformed offset wanted) :=
  evaluate_ofReading_iff functions ctx text trivial

end Expr

end Commission
