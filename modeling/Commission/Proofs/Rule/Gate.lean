import Commission.Proofs.Expr.Values
import Commission.Service

/-!
What evaluating a rule comes to. The first condition that does not hold decides alone; the
calculation counts only when there is none. Main statement: `outcome_follows_gate`.
-/
namespace Commission

namespace Condition
variable {ctx : Context} {cs : List Condition} {c : Condition} {i : Nat}

/-- At this place, counted from zero, stands the first condition that does not hold. -/
structure StopsAt (ctx : Context) (cs : List Condition) (i : Nat) (c : Condition) : Prop where
  here : cs[i]? = some c
  earlier : ∀ d ∈ cs.take i, d.eval ctx = .ok true
  falls : c.eval ctx ≠ .ok true

theorem firstFailing_of_stopsAt (stops : StopsAt ctx cs i c) :
    firstFailing ctx cs = (c.eval ctx).map fun _ => some (i + 1) := by
  induction cs generalizing i with
  | nil => simpa using stops.here
  | cons d ds ih =>
    cases i with
    | zero =>
      obtain rfl : d = c := by simpa using stops.here
      have falls := stops.falls
      unfold firstFailing
      cases verdict : d.eval ctx with
      | error e => rfl
      | ok holds =>
        obtain rfl : holds = false := by simpa [verdict] using falls
        rfl
    | succ j =>
      have first : d.eval ctx = .ok true := stops.earlier d (by simp)
      have rest : StopsAt ctx ds j c := by
        refine ⟨by simpa using stops.here, ?_, stops.falls⟩
        intro later mem
        exact stops.earlier later (by simp [mem])
      unfold firstFailing
      rw [first, ih rest]
      cases c.eval ctx <;> rfl

theorem firstFailing_of_all (all : ∀ c ∈ cs, c.eval ctx = .ok true) :
    firstFailing ctx cs = .ok none := by
  induction cs with
  | nil => rfl
  | cons d ds ih =>
    have rest := ih fun c mem => all c (by simp [mem])
    rw [firstFailing, all d (by simp), rest]
    rfl

theorem all_or_stopsAt (ctx : Context) (cs : List Condition) :
    (∀ c ∈ cs, c.eval ctx = .ok true) ∨ ∃ i c, StopsAt ctx cs i c := by
  induction cs with
  | nil => simp
  | cons d ds ih =>
    by_cases first : d.eval ctx = .ok true
    · rcases ih with all | ⟨i, c, stops⟩
      · exact .inl (by simpa [first] using all)
      · refine .inr ⟨i + 1, c, by simpa using stops.here, ?_, stops.falls⟩
        simpa [first] using stops.earlier
    · exact .inr ⟨0, d, rfl, by simp, first⟩

theorem failsWith_eval (ctx : Context) (c : Condition) :
    FailsWith (fun e => e.cause = e) (c.eval ctx) := by
  unfold eval
  split
  · exact failsWith_error rfl
  · dsimp only
    split
    · split
      · exact failsWith_ok _
      · exact failsWith_error rfl
    · exact failsWith_ok _

end Condition

namespace Service
variable {ctx : Context} {r : Rule}

theorem evaluateDetailed_of_stopsAt (s : Service) {c : Condition} {i : Nat}
    (stops : Condition.StopsAt ctx r.conditions i c) :
    s.evaluateDetailed ctx r =
      ((c.eval ctx).map fun _ => ⟨r.name, .zero, some (i + 1)⟩).mapError (.inRule r.name) := by
  unfold evaluateDetailed outcome
  rw [Condition.firstFailing_of_stopsAt stops]
  cases c.eval ctx <;> rfl

theorem evaluateDetailed_of_all (s : Service) (all : ∀ c ∈ r.conditions, c.eval ctx = .ok true) :
    s.evaluateDetailed ctx r =
      ((Expr.evaluate s.functions ctx r.calculation).map fun amount =>
        ⟨r.name, amount, none⟩).mapError fun e => .inRule r.name (.calculation r.calculation e) := by
  unfold evaluateDetailed outcome
  rw [Condition.firstFailing_of_all all]
  cases Expr.evaluate s.functions ctx r.calculation <;> rfl

end Service

/-- Evaluation follows the conditions in their order. -/
theorem outcome_follows_gate (s : Service) (ctx : Context) (r : Rule) :
    (∀ i c, Condition.StopsAt ctx r.conditions i c →
      (c.eval ctx = .ok false → ∃ o, s.evaluateDetailed ctx r = .ok o ∧ o.rule = r.name ∧
        o.fired = false ∧ o.failedCondition = some (i + 1) ∧ o.amount = .zero) ∧
      ∀ e, c.eval ctx = .error e →
        s.evaluateDetailed ctx r = .error (.inRule r.name e) ∧ e.cause = e) ∧
    ((∀ c ∈ r.conditions, c.eval ctx = .ok true) →
      (∀ amount, Expr.evaluate s.functions ctx r.calculation = .ok amount →
        ∃ o, s.evaluateDetailed ctx r = .ok o ∧ o.rule = r.name ∧ o.fired = true ∧
          o.failedCondition = none ∧ o.amount = amount ∧ amount.isFinite) ∧
      ∀ e, Expr.evaluate s.functions ctx r.calculation = .error e →
        s.evaluateDetailed ctx r = .error (.inRule r.name (.calculation r.calculation e))) ∧
    (∀ o, s.evaluateDetailed ctx r = .ok o → s.evaluate ctx r = .ok o.amount) ∧
    ∀ e, s.evaluateDetailed ctx r = .error e → s.evaluate ctx r = .error e := by
  refine ⟨fun i c stops => ⟨fun verdict => ?_, fun e failed => ?_⟩,
    fun all => ⟨fun amount evaluated => ?_, fun e failed => ?_⟩, fun o evaluated => ?_,
    fun e failed => ?_⟩
  · refine ⟨⟨r.name, .zero, some (i + 1)⟩, ?_, rfl, rfl, rfl, rfl⟩
    rw [s.evaluateDetailed_of_stopsAt stops, verdict]
    rfl
  · rw [s.evaluateDetailed_of_stopsAt stops, failed]
    exact ⟨rfl, Condition.failsWith_eval ctx c e failed⟩
  · refine ⟨⟨r.name, amount, none⟩, ?_, rfl, rfl, rfl, rfl, Expr.isFinite_of_evaluate evaluated⟩
    rw [s.evaluateDetailed_of_all all, evaluated]
    rfl
  · rw [s.evaluateDetailed_of_all all, failed]
    rfl
  · rw [Service.evaluate, evaluated]
    rfl
  · rw [Service.evaluate, failed]
    rfl

def quotaMet : Condition := ⟨"quota", .gt, .scalar (.int 0)⟩

def inRegion : Condition := ⟨"region", .eq, .scalar (.text "emea")⟩

def inTier : Condition := ⟨"tier", .isIn, .list []⟩

/-- The third condition has no field in these contexts, and the calculation cannot be read. -/
def gatedRule : Rule := ⟨"Gated", 1, [quotaMet, inRegion, inTier], "1 +", none⟩

def ratioRule : Rule := ⟨"Ratio", 1, [quotaMet], "quota / 5", none⟩

def unboundedRule : Rule := ⟨"Unbounded", 1, [quotaMet], "quota / 0", none⟩

def apacSale : Context := .ofList [("quota", .scalar (.int 5)), ("region", .scalar (.text "apac"))]

def emeaSale : Context := .ofList [("quota", .scalar (.int 5)), ("region", .scalar (.text "emea"))]

theorem outcome_follows_gate_gated :
    (∃ o, Service.evaluateDetailed {} apacSale gatedRule = .ok o ∧ o.fired = false ∧
      o.failedCondition = some 2 ∧ Service.evaluate {} apacSale gatedRule = .ok .zero) ∧
    Service.evaluate {} emeaSale gatedRule = .error (.inRule "Gated" (.missingField "tier")) ∧
    (∃ o, Service.evaluateDetailed {} apacSale ratioRule = .ok o ∧
      o.fired = true ∧ o.failedCondition = none ∧ o.amount = Binary64.ofInt 1) ∧
    Service.evaluateDetailed {} apacSale unboundedRule =
      .error (.inRule "Unbounded" (.calculation "quota / 0" .divisionByZero)) := by
  have quota : quotaMet.eval apacSale = .ok true := rfl
  have quota' : quotaMet.eval emeaSale = .ok true := rfl
  refine ⟨?_, ?_, ?_, ?_⟩
  · have second : inRegion.eval apacSale = .ok false := rfl
    have stops : Condition.StopsAt apacSale gatedRule.conditions 1 inRegion :=
      ⟨rfl, by simp [gatedRule, quota], by simp [second]⟩
    obtain ⟨decided, -, amounts, -⟩ := outcome_follows_gate {} apacSale gatedRule
    obtain ⟨o, evaluated, -, fired, position, zero⟩ := (decided 1 _ stops).1 second
    exact ⟨o, evaluated, fired, position, zero ▸ amounts o evaluated⟩
  · have second : inRegion.eval emeaSale = .ok true := rfl
    have third : inTier.eval emeaSale = .error (.missingField "tier") := rfl
    have stops : Condition.StopsAt emeaSale gatedRule.conditions 2 inTier :=
      ⟨rfl, by simp [gatedRule, quota', second], by simp [third]⟩
    obtain ⟨decided, -, -, errors⟩ := outcome_follows_gate {} emeaSale gatedRule
    exact errors _ ((decided 2 _ stops).2 _ third).1
  · have amount : Expr.evaluate .standard apacSale "quota / 5" = .ok (Binary64.ofInt 1) := by
      apply toOption_eq_some_iff.mp
      decide +kernel
    obtain ⟨-, all, -⟩ := outcome_follows_gate {} apacSale ratioRule
    obtain ⟨o, evaluated, -, fired, absent, same, -⟩ := (all (by simp [ratioRule, quota])).1 _ amount
    exact ⟨o, evaluated, fired, absent, same⟩
  · have failed : Expr.evaluate .standard apacSale "quota / 0" = .error .divisionByZero := by
      apply failure?_eq_some_iff.mp
      decide +kernel
    obtain ⟨-, all, -⟩ := outcome_follows_gate {} apacSale unboundedRule
    exact (all (by simp [unboundedRule, quota])).2 _ failed

end Commission
