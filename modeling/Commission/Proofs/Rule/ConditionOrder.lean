import Commission.Proofs.Rule.Gate
import Commission.Proofs.Rule.Requirements

/-!
The gate of a valid rule. It fails only where a field is missing, and where none is, the order of
the conditions does not count. Main statement: `gate_of_valid`.
-/
namespace Commission

namespace Condition
variable {ctx : Context} {cs : List Condition} {c : Condition} {i : Nat}

def Listed (c : Condition) : Prop := c.operator = .isIn → ∃ items, c.value = .list items

def Decided (ctx : Context) (c : Condition) : Prop := ∃ verdict, c.eval ctx = .ok verdict

theorem eval_of_missing (missing : ctx.get? c.field = none) :
    c.eval ctx = .error (.missingField c.field) := by
  rw [eval, missing]

/-- Only a text is replaced by an entry of the context, so a list stays one. -/
theorem decided_of_bound (listed : c.Listed) (bound : (ctx.get? c.field).isSome) :
    c.Decided ctx := by
  obtain ⟨actual, found⟩ := Option.isSome_iff_exists.mp bound
  unfold Decided eval
  rw [found]
  cases isIn : c.operator with
  | isIn =>
    obtain ⟨items, held⟩ := listed isIn
    rw [held]
    exact ⟨isMember actual items, rfl⟩
  | _ => exact ⟨_, rfl⟩

theorem eval_eq_error_iff (listed : c.Listed) (e : EvaluationError) :
    c.eval ctx = .error e ↔ ctx.get? c.field = none ∧ e = .missingField c.field := by
  cases found : ctx.get? c.field with
  | none =>
    rw [eval_of_missing found, Except.error.injEq]
    simp [eq_comm]
  | some actual =>
    have bound : (ctx.get? c.field).isSome := by simp [found]
    obtain ⟨verdict, evaluated⟩ := decided_of_bound listed bound
    simp [evaluated]

theorem firstFailing_eq_error_iff (listed : ∀ c ∈ cs, c.Listed) (e : EvaluationError) :
    firstFailing ctx cs = .error e ↔
      ∃ i c, StopsAt ctx cs i c ∧ ctx.get? c.field = none ∧ e = .missingField c.field := by
  constructor
  · intro failed
    rcases all_or_stopsAt ctx cs with all | ⟨i, c, stops⟩
    · rw [firstFailing_of_all all] at failed
      contradiction
    · have member : c ∈ cs := List.mem_of_getElem? stops.here
      refine ⟨i, c, stops, (eval_eq_error_iff (listed c member) e).mp ?_⟩
      rw [firstFailing_of_stopsAt stops] at failed
      cases evaluated : c.eval ctx with
      | error f => simpa [evaluated, Except.map] using failed
      | ok verdict => simp [evaluated, Except.map] at failed
  · rintro ⟨i, c, stops, missing, rfl⟩
    rw [firstFailing_of_stopsAt stops, eval_of_missing missing]
    rfl

theorem firstFailing_of_decided (decided : ∀ c ∈ cs, c.Decided ctx) :
    ∃ position, firstFailing ctx cs = .ok position := by
  rcases all_or_stopsAt ctx cs with all | ⟨i, c, stops⟩
  · exact ⟨none, firstFailing_of_all all⟩
  · obtain ⟨verdict, evaluated⟩ := decided c (List.mem_of_getElem? stops.here)
    rw [firstFailing_of_stopsAt stops, evaluated]
    exact ⟨some (i + 1), rfl⟩

end Condition

theorem Rule.listed_of_validate {fields : FieldSet} {r : Rule}
    (valid : r.validate fields = .ok ()) : ∀ c ∈ r.conditions, c.Listed := by
  intro c member isIn
  have acceptable := (r.validate_eq_ok_iff fields).mp valid
  obtain ⟨items, held, -⟩ := (acceptable.conditions.2.2 c member).list isIn
  exact ⟨items, held⟩

namespace Service
variable {ctx : Context} {r : Rule} {cs : List Condition}

theorem evaluateDetailed_of_falls (s : Service) (decided : ∀ c ∈ r.conditions, c.Decided ctx)
    (falls : ¬ ∀ c ∈ r.conditions, c.eval ctx = .ok true) :
    ∃ i, s.evaluateDetailed ctx r = .ok ⟨r.name, .zero, some i⟩ := by
  obtain ⟨i, c, stops⟩ := (Condition.all_or_stopsAt ctx r.conditions).resolve_left falls
  obtain ⟨verdict, evaluated⟩ := decided c (List.mem_of_getElem? stops.here)
  rw [s.evaluateDetailed_of_stopsAt stops, evaluated]
  exact ⟨i + 1, rfl⟩

/-- Reordering conditions changes at most the position that is reported. -/
theorem evaluateDetailed_perm (s : Service) (decided : ∀ c ∈ r.conditions, c.Decided ctx)
    (perm : cs.Perm r.conditions) :
    s.evaluateDetailed ctx { r with conditions := cs } = s.evaluateDetailed ctx r ∨
      ∃ i j, s.evaluateDetailed ctx { r with conditions := cs } = .ok ⟨r.name, .zero, some i⟩ ∧
        s.evaluateDetailed ctx r = .ok ⟨r.name, .zero, some j⟩ := by
  have same : (∀ c ∈ cs, c.eval ctx = .ok true) ↔ ∀ c ∈ r.conditions, c.eval ctx = .ok true := by
    simp only [perm.mem_iff]
  by_cases all : ∀ c ∈ r.conditions, c.eval ctx = .ok true
  · left
    rw [s.evaluateDetailed_of_all all, s.evaluateDetailed_of_all (same.mpr all)]
  · right
    have decided' : ∀ c ∈ cs, c.Decided ctx := fun c member => decided c (perm.mem_iff.mp member)
    obtain ⟨i, evaluated⟩ := s.evaluateDetailed_of_falls (r := { r with conditions := cs }) decided'
      fun all' => all (same.mp all')
    obtain ⟨j, evaluated'⟩ := s.evaluateDetailed_of_falls decided all
    exact ⟨i, j, evaluated, evaluated'⟩

theorem evaluate_of_gate (s : Service) {e : EvaluationError}
    (failed : Condition.firstFailing ctx r.conditions = .error e) :
    s.evaluate ctx r = .error (.inRule r.name e) := by
  rw [evaluate, evaluateDetailed, outcome, failed]
  rfl

theorem cause_of_evaluate (s : Service) {e : EvaluationError}
    (listed : ∀ c ∈ r.conditions, c.Listed) (failed : s.evaluate ctx r = .error e) :
    (∃ field, e.cause = .missingField field) ∨
      ∃ source, e.cause = .calculation r.calculation source := by
  rw [evaluate, evaluateDetailed, outcome] at failed
  cases gate : Condition.firstFailing ctx r.conditions with
  | error f =>
    obtain ⟨i, c, -, -, rfl⟩ := (Condition.firstFailing_eq_error_iff listed f).mp gate
    rw [gate] at failed
    obtain rfl := Except.error.inj failed
    exact .inl ⟨c.field, rfl⟩
  | ok position =>
    rw [gate] at failed
    cases position with
    | some i => contradiction
    | none =>
      cases amount : Expr.evaluate s.functions ctx r.calculation with
      | ok x =>
        rw [amount] at failed
        contradiction
      | error source =>
        rw [amount] at failed
        obtain rfl := Except.error.inj failed
        exact .inr ⟨source, rfl⟩

end Service

/-- The gate of a valid rule fails exactly where a field is missing behind conditions that hold. If
    no field is missing it does not fail, and the rule with its conditions in another order pays
    the same or fails alike. -/
theorem gate_of_valid (s : Service) (ctx : Context) {r : Rule} (valid : s.validate r = .ok ()) :
    (∀ e, Condition.firstFailing ctx r.conditions = .error e ↔
      ∃ i c, Condition.StopsAt ctx r.conditions i c ∧ ctx.get? c.field = none ∧
        e = .missingField c.field) ∧
    (∀ e, Condition.firstFailing ctx r.conditions = .error e →
      s.evaluate ctx r = .error (.inRule r.name e)) ∧
    (∀ e, s.evaluate ctx r = .error e → ∀ field found, e.cause ≠ .notAList field found) ∧
    ((∀ c ∈ r.conditions, (ctx.get? c.field).isSome) →
      (∃ position, Condition.firstFailing ctx r.conditions = .ok position) ∧
      ∀ cs, cs.Perm r.conditions →
        s.evaluate ctx { r with conditions := cs } = s.evaluate ctx r ∧
        (s.evaluateDetailed ctx { r with conditions := cs }).map Outcome.fired =
          (s.evaluateDetailed ctx r).map Outcome.fired) := by
  have listed := Rule.listed_of_validate valid
  refine ⟨Condition.firstFailing_eq_error_iff listed, fun e => s.evaluate_of_gate, ?_, ?_⟩
  · intro e failed field found same
    rcases s.cause_of_evaluate listed failed with ⟨missing, cause⟩ | ⟨source, cause⟩
    · simp [cause] at same
    · simp [cause] at same
  · intro bound
    have decided : ∀ c ∈ r.conditions, c.Decided ctx := fun c member =>
      Condition.decided_of_bound (listed c member) (bound c member)
    refine ⟨Condition.firstFailing_of_decided decided, fun cs perm => ?_⟩
    rcases s.evaluateDetailed_perm decided perm with same | ⟨i, j, evaluated, evaluated'⟩
    · rw [Service.evaluate, Service.evaluate, same]
      exact ⟨rfl, rfl⟩
    · rw [Service.evaluate, Service.evaluate, evaluated, evaluated']
      exact ⟨rfl, rfl⟩

def inRegions : Condition := ⟨"region", .isIn, .list [.text "emea", .text "amer"]⟩

def regionsRule : Rule := ⟨"Regions", 1, [quotaMet, inRegions], "quota / 5", none⟩

def regionFirst : Rule := { regionsRule with conditions := [inRegions, quotaMet] }

theorem gate_of_valid_regions :
    Service.validate {} regionsRule = .ok () ∧
    Service.evaluate {} .empty regionsRule = .error (.inRule "Regions" (.missingField "quota")) ∧
    (Service.evaluateDetailed {} apacSale regionsRule).map Outcome.failedCondition =
      .ok (some 2) ∧
    (Service.evaluateDetailed {} apacSale regionFirst).map Outcome.failedCondition =
      .ok (some 1) ∧
    Service.evaluate {} apacSale regionFirst = Service.evaluate {} apacSale regionsRule := by
  have valid : Service.validate {} regionsRule = .ok () := by
    apply toOption_eq_some_iff.mp
    decide +kernel
  have missing : Condition.eval .empty quotaMet = .error (.missingField "quota") := rfl
  have stops : Condition.StopsAt .empty regionsRule.conditions 0 quotaMet :=
    ⟨rfl, by simp, by simp [missing]⟩
  have bound : ∀ c ∈ regionsRule.conditions, (apacSale.get? c.field).isSome := by
    decide +kernel
  obtain ⟨fails, errors, -⟩ := gate_of_valid {} .empty valid
  obtain ⟨-, -, -, orderless⟩ := gate_of_valid {} apacSale valid
  refine ⟨valid, ?_, rfl, rfl, ?_⟩
  · exact errors _ ((fails _).mpr ⟨0, quotaMet, stops, rfl, rfl⟩)
  · exact ((orderless bound).2 _ (.swap ..)).1

end Commission
