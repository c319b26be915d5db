import Commission.Service

/-!
What several rules pay together: lower priorities first, rules of one priority in the order in
which they stand. The first rule that cannot be evaluated ends the payout without a total.
-/
namespace Commission

/-- The outcomes up to the first error, and the total if there is none. -/
structure Payout where
  outcomes : List Outcome
  total : Except EvaluationError Binary64

def byPriority (rules : List Rule) : List Rule :=
  rules.mergeSort fun a b => a.priority.toInt ≤ b.priority.toInt

namespace Payout

def start : Payout := ⟨[], .ok .zero⟩

def add (s : Service) (ctx : Context) (p : Payout) (r : Rule) : Payout :=
  match p.total with
  | .error _ => p
  | .ok total =>
    match s.evaluateDetailed ctx r with
    | .ok o => ⟨p.outcomes ++ [o], .ok (total.add o.amount)⟩
    | .error e => ⟨p.outcomes, .error e⟩

end Payout

def Service.payout (s : Service) (ctx : Context) (rules : List Rule) : Payout :=
  rules.foldl (Payout.add s ctx) .start

end Commission
