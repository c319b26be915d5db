import Commission.Payout
import Commission.Proofs.Failure
import Mathlib.Data.List.Induction
import Mathlib.Data.List.Pairwise

/-!
Rules are paid by priority: the order is the only one in which priorities rise and the rules of each
priority stand as they stood before. A payout has the outcomes of the rules before the first that
cannot be evaluated; without such a rule its total is the sum of all amounts from left to right.
Main statements: `eq_byPriority_iff`, `payout_of_ok`,
`payout_of_error` and `payout_total`.
-/
namespace Commission

/-! ## Order -/

section Order
variable {rules others : List Rule}

def Rising (rules : List Rule) : Prop :=
  rules.Pairwise fun a b => a.priority.toInt ≤ b.priority.toInt

def ofPriority (p : Int64) (rules : List Rule) : List Rule :=
  rules.filter fun r => r.priority == p

theorem mem_ofPriority {p : Int64} {r : Rule} :
    r ∈ ofPriority p rules ↔ r ∈ rules ∧ r.priority = p := by
  rw [ofPriority, List.mem_filter, beq_iff_eq]

theorem byPriority_perm (rules : List Rule) : (byPriority rules).Perm rules :=
  List.mergeSort_perm ..

theorem priority_trans (a b c : Rule) (first : decide (a.priority.toInt ≤ b.priority.toInt))
    (second : decide (b.priority.toInt ≤ c.priority.toInt)) :
    decide (a.priority.toInt ≤ c.priority.toInt) := by
  simp only [decide_eq_true_eq] at first second ⊢
  exact Int.le_trans first second

theorem priority_total (a b : Rule) :
    decide (a.priority.toInt ≤ b.priority.toInt) ||
      decide (b.priority.toInt ≤ a.priority.toInt) := by
  simp only [Bool.or_eq_true, decide_eq_true_eq]
  exact Int.le_total ..

theorem rising_byPriority (rules : List Rule) : Rising (byPriority rules) := by
  have sorted := List.pairwise_mergeSort priority_trans priority_total rules
  exact sorted.imp of_decide_eq_true

/-- Sorting keeps the rules of one priority in their order. -/
theorem ofPriority_byPriority (p : Int64) (rules : List Rule) :
    ofPriority p (byPriority rules) = ofPriority p rules := by
  have equal : (ofPriority p rules).Pairwise fun a b =>
      decide (a.priority.toInt ≤ b.priority.toInt) := by
    refine List.pairwise_of_forall_mem_list fun a mem b mem' => ?_
    rw [(mem_ofPriority.mp mem).2, (mem_ofPriority.mp mem').2]
    simp
  have kept : (ofPriority p rules).Sublist (byPriority rules) :=
    List.sublist_mergeSort priority_trans priority_total equal List.filter_sublist
  have inside : (ofPriority p rules).Sublist (ofPriority p (byPriority rules)) := by
    have filtered := kept.filter fun r => r.priority == p
    simpa only [ofPriority, List.filter_filter, Bool.and_self] using filtered
  have perm : (ofPriority p (byPriority rules)).Perm (ofPriority p rules) :=
    (byPriority_perm rules).filter _
  exact (inside.eq_of_length perm.length_eq.symm).symm

theorem mem_of_ofPriority (same : ∀ p, ofPriority p rules = ofPriority p others) {r : Rule}
    (mem : r ∈ rules) : r ∈ others := by
  have found : r ∈ ofPriority r.priority rules := mem_ofPriority.mpr ⟨mem, rfl⟩
  rw [same] at found
  exact (mem_ofPriority.mp found).1

theorem Rising.head_le {r x : Rule} (rising : Rising (r :: rules)) (mem : x ∈ r :: rules) :
    r.priority.toInt ≤ x.priority.toInt := by
  rcases List.mem_cons.mp mem with rfl | mem
  · exact Int.le_refl _
  · exact (List.pairwise_cons.mp rising).1 x mem

theorem eq_of_rising (rising : Rising rules) (rising' : Rising others)
    (same : ∀ p, ofPriority p rules = ofPriority p others) : rules = others := by
  induction rules generalizing others with
  | nil =>
    symm
    refine List.eq_nil_iff_forall_not_mem.mpr fun r mem => ?_
    simpa using mem_of_ofPriority (fun p => (same p).symm) mem
  | cons r rules ih =>
    have mem : r ∈ others := mem_of_ofPriority same (by simp)
    obtain ⟨o, others, rfl⟩ := List.exists_cons_of_ne_nil (List.ne_nil_of_mem mem)
    have mem' : o ∈ r :: rules := mem_of_ofPriority (fun p => (same p).symm) (by simp)
    have equal : r.priority = o.priority :=
      Int64.toInt.inj (Int.le_antisymm (rising.head_le mem') (rising'.head_le mem))
    obtain rfl : r = o := by
      have heads := same o.priority
      simp only [ofPriority, List.filter_cons, equal, beq_self_eq_true, if_true] at heads
      exact (List.cons.inj heads).1
    congr 1
    refine ih (List.Pairwise.of_cons rising) (List.Pairwise.of_cons rising') fun p => ?_
    have tails := same p
    simp only [ofPriority, List.filter_cons] at tails ⊢
    split at tails
    · exact (List.cons.inj tails).2
    · exact tails

theorem eq_byPriority_iff :
    others = byPriority rules ↔
      Rising others ∧ ∀ p, ofPriority p others = ofPriority p rules := by
  constructor
  · rintro rfl
    exact ⟨rising_byPriority rules, fun p => ofPriority_byPriority p rules⟩
  · rintro ⟨rising, same⟩
    refine eq_of_rising rising (rising_byPriority rules) fun p => ?_
    rw [same, ofPriority_byPriority]

end Order

/-! ## Total -/

def Payout.sum (outcomes : List Outcome) : Binary64 :=
  outcomes.foldl (fun total o => total.add o.amount) .zero

namespace Service
variable {s : Service} {ctx : Context} {rules : List Rule}

theorem payout_concat (s : Service) (ctx : Context) (rules : List Rule) (r : Rule) :
    s.payout ctx (rules ++ [r]) = (s.payout ctx rules).add s ctx r := by
  rw [payout, List.foldl_append]
  rfl

theorem payout_append_of_error {e : EvaluationError} (ended : (s.payout ctx rules).total = .error e)
    (more : List Rule) : s.payout ctx (rules ++ more) = s.payout ctx rules := by
  induction more using List.reverseRecOn with
  | nil => rw [List.append_nil]
  | append_singleton more r ih =>
    rw [← List.append_assoc, payout_concat, ih, Payout.add, ended]

theorem payout_of_ok {outcomes : List Outcome}
    (all : rules.mapM (s.evaluateDetailed ctx) = .ok outcomes) :
    s.payout ctx rules = ⟨outcomes, .ok (Payout.sum outcomes)⟩ := by
  induction rules using List.reverseRecOn generalizing outcomes with
  | nil =>
    obtain rfl : [] = outcomes := Except.ok.inj all
    rfl
  | append_singleton rules r ih =>
    rw [List.mapM_append] at all
    obtain ⟨before, last, paid, now, rfl⟩ := both_eq_ok_iff.mp all
    rw [List.mapM_cons] at now
    obtain ⟨o, rest, done, none, rfl⟩ := both_eq_ok_iff.mp now
    obtain rfl : [] = rest := Except.ok.inj none
    rw [payout_concat, ih paid, Payout.add, done]
    simp [Payout.sum]

theorem payout_of_error {before : List Rule} {r : Rule} {outcomes : List Outcome}
    {e : EvaluationError} (all : before.mapM (s.evaluateDetailed ctx) = .ok outcomes)
    (failed : s.evaluateDetailed ctx r = .error e) (after : List Rule) :
    s.payout ctx (before ++ r :: after) = ⟨outcomes, .error e⟩ := by
  have ended : s.payout ctx (before ++ [r]) = ⟨outcomes, .error e⟩ := by
    rw [payout_concat, payout_of_ok all, Payout.add, failed]
  rw [List.append_cons, payout_append_of_error (by rw [ended]), ended]

theorem payout_total (s : Service) (ctx : Context) (rules : List Rule) :
    (s.payout ctx rules).total = (rules.mapM (s.evaluateDetailed ctx)).map Payout.sum := by
  cases run : rules.mapM (s.evaluateDetailed ctx) with
  | ok outcomes => rw [payout_of_ok run, Except.map]
  | error e =>
    obtain ⟨before, r, after, rfl, paid, failed⟩ := mapM_eq_error_iff.mp run
    obtain ⟨outcomes, all⟩ := mapM_eq_ok paid
    rw [payout_of_error all failed, Except.map]

end Service

end Commission
