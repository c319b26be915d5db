import Commission.Proofs.Expr.Values
import Mathlib.Data.List.Induction

/-!
More functions in the table. Only a calculation that misses a name can tell a table from one with
more functions: a node that passes under the smaller table passes under the larger one, and the
first node that does not has the same error under both. Main statement: `widening_preserves`.
-/
namespace Commission

def ExprError.OfMissing : ExprError → Prop
  | .unknownVariable _ | .unknownFunction _ => True
  | _ => False

namespace FunctionTable

def Within (small large : FunctionTable) : Prop :=
  ∀ name b, small.get? name = some b → large.get? name = some b

theorem get?_ofBuiltins_iff {builtins : List Builtin} {name : String} {b : Builtin} :
    (ofBuiltins builtins).get? name = some b ↔ b ∈ builtins ∧ b.name = name := by
  induction builtins using List.reverseRecOn with
  | nil => simp [ofBuiltins, NameMap.ofList, get?, NameMap.get?, NameMap.empty]
  | append_singleton earlier c ih =>
    have step : (ofBuiltins (earlier ++ [c])).get? name =
        if name = c.name then some c else (ofBuiltins earlier).get? name := by
      simp only [ofBuiltins, NameMap.ofList, get?, List.map_append, List.foldl_append]
      exact NameMap.get?_insert ..
    rw [step]
    by_cases same : name = c.name
    · rw [if_pos same, Option.some.injEq, List.mem_append, List.mem_singleton, same]
      constructor
      · rintro rfl
        exact ⟨.inr rfl, rfl⟩
      · rintro ⟨-, named⟩
        exact (Builtin.name_injective named).symm
    · rw [if_neg same, ih, List.mem_append, List.mem_singleton]
      constructor
      · rintro ⟨mem, named⟩
        exact ⟨.inl mem, named⟩
      · rintro ⟨mem | rfl, named⟩
        · exact ⟨mem, named⟩
        · exact absurd named.symm same

theorem within_ofBuiltins {small large : List Builtin} (subset : small ⊆ large) :
    (ofBuiltins small).Within (ofBuiltins large) := by
  intro name b known
  obtain ⟨mem, named⟩ := get?_ofBuiltins_iff.mp known
  exact get?_ofBuiltins_iff.mpr ⟨subset mem, named⟩

end FunctionTable

namespace Expr

/-- Of two searches that agree on harmless hits, one finds what the other does if that is
    harmless. -/
theorem findSome?_agree {α β : Type} {f g : α → Option β} {harmless : β → Prop} {xs : List α}
    (agree : ∀ x ∈ xs, (∀ y, f x = some y → harmless y) → g x = f x)
    (found : ∀ y, xs.findSome? f = some y → harmless y) : xs.findSome? g = xs.findSome? f := by
  induction xs with
  | nil => rfl
  | cons x xs ih =>
    cases hit : f x with
    | some y =>
      have same : g x = f x := by
        apply agree x (by simp)
        intro z hit'
        obtain rfl := Option.some.inj (hit.symm.trans hit')
        exact found y (by simp [hit])
      simp [same, hit]
    | none =>
      have same : g x = f x := by
        apply agree x (by simp)
        simp [hit]
      have rest := ih (fun z mem => agree z (by simp [mem]))
        fun y later => found y (by simpa [hit] using later)
      simpa [same, hit] using rest

section Widening
variable {small large : FunctionTable} {ctx : Context}

theorem resolve_of_bound {name : String} {v : Value} (bound : ctx.get? name = some v) :
    resolve large ctx name = resolve small ctx name := by
  rw [resolve, resolve, bound]
  cases v with
  | scalar s => cases s <;> rfl
  | list items => rfl

theorem resolve_widened {name : String} {value : Operand}
    (resolved : resolve small ctx name = .ok value) :
    resolve large ctx name = resolve small ctx name := by
  cases bound : ctx.get? name with
  | some v => exact resolve_of_bound bound
  | none =>
    have failed := failure?_resolve_none small ctx bound
    rw [resolved] at failed
    contradiction

theorem fault?_widened (within : small.Within large) {node : Expr}
    (named : ∀ err, fault? small ctx node = some err → ¬ err.OfMissing) :
    fault? large ctx node = fault? small ctx node := by
  cases node with
  | var name =>
    cases bound : ctx.get? name with
    | some v => rw [fault?, fault?, resolve_of_bound bound]
    | none =>
      rw [fault?, failure?_resolve_none small ctx bound] at named
      rw [fault?, fault?, failure?_resolve_none small ctx bound,
        failure?_resolve_none large ctx bound]
      cases function : small.get? name with
      | none =>
        rw [function] at named
        exact absurd trivial (named (.unknownVariable name) rfl)
      | some b => rw [within name b function]
  | call name args =>
    cases known : small.get? name with
    | none =>
      rw [fault?, checkCall, known] at named
      exact absurd trivial (named (.unknownFunction name) rfl)
    | some b => rw [fault?, fault?, checkCall, checkCall, known, within name b known]
  | _ => rfl

theorem value_widened (within : small.Within large) {e : Expr}
    (named : ∀ err, bind small ctx e = .error err → ¬ err.OfMissing) :
    value large ctx e = value small ctx e := by
  apply value_congr
  · rw [failure?_bindings, failure?_bindings]
    apply findSome?_agree fun node _ => fault?_widened within
    intro err first
    rw [← failure?_bindings, failure?_eq_some_iff] at first
    exact named err first
  · intro others vars bound' bound
    apply eval_congr
    · intro name args mem
      have sound := not_offends_of_bind small ctx bound mem
      cases known : small.get? name with
      | none => exact absurd (.unknownFunction known) (sound _)
      | some b => exact within name b known
    · intro name mem
      obtain ⟨value, resolved, -⟩ := lookup_of_bind bound mem
      exact (resolves_bind bound').lookup_congr (resolves_bind bound) (resolve_widened resolved)
        mem mem

/-- What the first phase refuses has no amount, so the whole evaluation misses no name if the first
    phase does not. -/
theorem amount_widened (within : small.Within large) {e : Expr}
    (named : ∀ err, amount small ctx e = .error err → ¬ err.OfMissing) :
    amount large ctx e = amount small ctx e := by
  have same : value large ctx e = value small ctx e := by
    apply value_widened within
    intro err refused
    exact named err (amount_of_refused refused)
  rw [amount_eq_value, amount_eq_value, same]

end Widening

/-- An evaluation that does not fail for a missing name comes to the same, amount or error, under
    every table with more functions. -/
theorem widening_preserves {small large : List Builtin} (subset : small ⊆ large) (ctx : Context) :
    (∀ e : Expr,
      (∀ err, amount (.ofBuiltins small) ctx e = .error err → ¬ err.OfMissing) →
      amount (.ofBuiltins large) ctx e = amount (.ofBuiltins small) ctx e) ∧
    ∀ text : String,
      (∀ err, evaluate (.ofBuiltins small) ctx text = .error err → ¬ err.OfMissing) →
      evaluate (.ofBuiltins large) ctx text = evaluate (.ofBuiltins small) ctx text := by
  have within := FunctionTable.within_ofBuiltins subset
  refine ⟨fun e => amount_widened within, ?_⟩
  intro text named
  unfold evaluate at named ⊢
  cases read : parse text with
  | error err => rfl
  | ok e =>
    rw [read] at named
    exact amount_widened within named

/-- The first node that offends is no missing name, though `max` is one under the first table. -/
theorem widening_preserves_minimum :
    evaluate (.ofBuiltins [.min]) .empty "min + max" = .error (.functionAsValue "min") ∧
    evaluate .standard .empty "min + max" = .error (.functionAsValue "min") ∧
    evaluate (.ofBuiltins [.min]) .empty "min(7, 8) / 0" = .error .divisionByZero ∧
    evaluate .standard .empty "min(7, 8) / 0" = .error .divisionByZero := by
  have subset : [Builtin.min] ⊆ Builtin.all := by decide
  have asValue : evaluate (.ofBuiltins [.min]) .empty "min + max" =
      .error (.functionAsValue "min") := by
    apply failure?_eq_some_iff.mp
    decide +kernel
  have divided : evaluate (.ofBuiltins [.min]) .empty "min(7, 8) / 0" = .error .divisionByZero := by
    apply failure?_eq_some_iff.mp
    decide +kernel
  refine ⟨asValue, ?_, divided, ?_⟩
  · refine ((widening_preserves subset .empty).2 _ ?_).trans asValue
    intro err failed
    obtain rfl := Except.error.inj (asValue.symm.trans failed)
    exact not_false
  · refine ((widening_preserves subset .empty).2 _ ?_).trans divided
    intro err failed
    obtain rfl := Except.error.inj (divided.symm.trans failed)
    exact not_false

end Expr
end Commission
