import Commission.Proofs.Expr.Nodes
import Commission.Proofs.Failure
import Commission.Service

/-!
Evaluation reads only the names a rule mentions: the fields of its conditions, the texts that may
stand for an entry, and the variables of its calculation. Main statement: `evaluation_reads`.
-/
namespace Commission

namespace Expr

def names (e : Expr) : List String :=
  e.nodes.filterMap fun
    | var name => some name
    | _ => none

theorem mem_names {e : Expr} {name : String} : name ∈ e.names ↔ var name ∈ e.nodes := by
  simp only [names, List.mem_filterMap]
  constructor
  · rintro ⟨node, mem, same⟩
    cases node with
    | var other =>
      obtain rfl : other = name := by simpa using same
      exact mem
    | _ => contradiction
  · intro mem
    exact ⟨var name, mem, rfl⟩

end Expr

def Condition.mentions (c : Condition) : List String :=
  match c.value with
  | .scalar (.text name) => [c.field, name]
  | _ => [c.field]

def Rule.mentions (r : Rule) : List String :=
  r.conditions.flatMap Condition.mentions ++
    match Expr.parse r.calculation with
    | .ok e => e.names
    | .error _ => []

section Agreement
variable {ctx other : Context}

namespace Condition

theorem eval_congr {c : Condition} (agree : ∀ name ∈ c.mentions, ctx.get? name = other.get? name) :
    c.eval ctx = c.eval other := by
  have field : ctx.get? c.field = other.get? c.field := by
    apply agree
    unfold mentions
    split <;> simp
  have value : operand ctx c.value = operand other c.value := by
    unfold operand
    split
    · next name text => rw [agree name (by simp [mentions, text])]
    · rfl
  unfold eval
  rw [field, value]

theorem firstFailing_congr {cs : List Condition} (same : ∀ c ∈ cs, c.eval ctx = c.eval other) :
    firstFailing ctx cs = firstFailing other cs := by
  induction cs with
  | nil => rfl
  | cons c cs ih =>
    have first := same c (by simp)
    have rest := ih fun d mem => same d (by simp [mem])
    rw [firstFailing, firstFailing, first, rest]

end Condition

namespace Expr
variable {functions : FunctionTable}

theorem bindAll_congr {es : List Expr}
    (same : ∀ e ∈ es, bind functions ctx e = bind functions other e) :
    bindAll functions ctx es = bindAll functions other es := by
  induction es with
  | nil => rfl
  | cons e es ih =>
    have first := same e (by simp)
    have rest := ih fun d mem => same d (by simp [mem])
    rw [bindAll, bindAll, first, rest]

theorem bind_congr {e : Expr} (agree : ∀ name, var name ∈ e.nodes → ctx.get? name = other.get? name) :
    bind functions ctx e = bind functions other e := by
  induction e with
  | number x => rfl
  | var name =>
    have here : ctx.get? name = other.get? name := agree name (by simp [nodes])
    rw [bind, bind, resolve, resolve, here]
  | negate e ih =>
    rw [bind, bind]
    exact ih fun name mem => agree name (by simp [nodes, mem])
  | binary op lhs rhs left right =>
    have first := left fun name mem => agree name (by simp [nodes, mem])
    have second := right fun name mem => agree name (by simp [nodes, mem])
    rw [bind, bind, first, second]
  | call name args each =>
    have all : bindAll functions ctx args = bindAll functions other args := by
      apply bindAll_congr
      intro e mem
      apply each e mem
      intro name inside
      exact agree name (mem_nodes_call mem inside)
    rw [bind, bind, all]

theorem amount_congr {e : Expr} (agree : ∀ name ∈ e.names, ctx.get? name = other.get? name) :
    amount functions ctx e = amount functions other e := by
  have bound : bind functions ctx e = bind functions other e :=
    bind_congr fun name mem => agree name (mem_names.mpr mem)
  rw [amount, amount, bound]

end Expr

theorem Service.outcome_congr (s : Service) {r : Rule}
    (agree : ∀ name ∈ r.mentions, ctx.get? name = other.get? name) :
    s.outcome ctx r = s.outcome other r := by
  have gate : Condition.firstFailing ctx r.conditions =
      Condition.firstFailing other r.conditions := by
    apply Condition.firstFailing_congr
    intro c mem
    apply Condition.eval_congr
    intro name mentioned
    apply agree
    exact List.mem_append_left _ (List.mem_flatMap.mpr ⟨c, mem, mentioned⟩)
  have calculated : Expr.evaluate s.functions ctx r.calculation =
      Expr.evaluate s.functions other r.calculation := by
    unfold Expr.evaluate
    cases parsed : Expr.parse r.calculation with
    | error e => rfl
    | ok e =>
      apply Expr.amount_congr
      intro name mem
      apply agree
      simp [Rule.mentions, parsed, mem]
  unfold Service.outcome
  rw [gate, calculated]

end Agreement

/-- Only the mentioned names matter; other entries may be put in, changed or taken out. -/
theorem evaluation_reads (s : Service) (r : Rule) :
    (∀ ctx other : Context, (∀ name ∈ r.mentions, ctx.get? name = other.get? name) →
      s.evaluateDetailed ctx r = s.evaluateDetailed other r) ∧
    ∀ (ctx : Context) (name : String), name ∉ r.mentions →
      (∀ v, s.evaluateDetailed (ctx.insert name v) r = s.evaluateDetailed ctx r) ∧
      s.evaluateDetailed (ctx.erase name) r = s.evaluateDetailed ctx r := by
  have agreement : ∀ ctx other : Context,
      (∀ name ∈ r.mentions, ctx.get? name = other.get? name) →
      s.evaluateDetailed ctx r = s.evaluateDetailed other r := by
    intro ctx other agree
    unfold Service.evaluateDetailed
    rw [s.outcome_congr agree]
  refine ⟨agreement, fun ctx name unmentioned => ⟨fun v => agreement _ _ ?_, agreement _ _ ?_⟩⟩
  · intro mentioned mem
    have ne : mentioned ≠ name := fun same => unmentioned (same ▸ mem)
    rw [NameMap.get?_insert, if_neg ne]
  · intro mentioned mem
    have ne : mentioned ≠ name := fun same => unmentioned (same ▸ mem)
    rw [NameMap.get?_erase, if_neg ne]

/-- Contexts below also have entries named like a listed region or the called function. -/
def regionalRule : Rule :=
  ⟨"Regional", 1, [⟨"region", .isIn, .list [.text "emea", .text "apac"]⟩,
    ⟨"tier", .eq, .scalar (.text "top")⟩], "max(bonus, 2)", none⟩

def regionalContext : Context :=
  .ofList [("bonus", .scalar (.int 3)), ("region", .scalar (.text "emea")),
    ("tier", .scalar (.int 1)), ("top", .scalar (.int 1))]

theorem evaluation_reads_regional :
    regionalRule.mentions = ["region", "tier", "top", "bonus"] ∧
    Service.evaluateDetailed {} regionalContext regionalRule =
      .ok ⟨"Regional", Binary64.ofInt 3, none⟩ ∧
    Service.evaluateDetailed {} ((regionalContext.insert "emea" (.list [])).insert "max"
      (.scalar (.int 9))) regionalRule = .ok ⟨"Regional", Binary64.ofInt 3, none⟩ ∧
    Service.evaluateDetailed {} (regionalContext.erase "apac") regionalRule =
      .ok ⟨"Regional", Binary64.ofInt 3, none⟩ := by
  have names : regionalRule.mentions = ["region", "tier", "top", "bonus"] := by decide +kernel
  have evaluated : Service.evaluateDetailed {} regionalContext regionalRule =
      .ok ⟨"Regional", Binary64.ofInt 3, none⟩ := by
    apply toOption_eq_some_iff.mp
    decide +kernel
  refine ⟨names, evaluated, ?_, ?_⟩
  · rw [(evaluation_reads {} regionalRule).1 _ regionalContext, evaluated]
    rw [names]
    decide
  · rw [((evaluation_reads {} regionalRule).2 regionalContext "apac" (by simp [names])).2]
    exact evaluated

end Commission
