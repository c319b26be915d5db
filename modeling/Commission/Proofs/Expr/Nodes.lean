import Commission.Expr.Basic

/-!
Induction on calculations, and their nodes in the order in which evaluation checks them.
-/
namespace Commission.Expr

/-- The arguments of a call are each covered by the hypothesis. -/
@[elab_as_elim, induction_eliminator]
theorem induct {motive : Expr → Prop} (number : ∀ x, motive (.number x))
    (var : ∀ name, motive (.var name)) (negate : ∀ e, motive e → motive (.negate e))
    (binary : ∀ op lhs rhs, motive lhs → motive rhs → motive (.binary op lhs rhs))
    (call : ∀ name args, (∀ e ∈ args, motive e) → motive (.call name args)) (e : Expr) :
    motive e := by
  refine Expr.rec (motive_1 := motive) (motive_2 := fun args => ∀ e ∈ args, motive e)
    number var negate binary call ?_ ?_ e
  · simp
  · intro first rest one all
    simpa using ⟨one, all⟩

mutual

/-- A node stands before the nodes below it, and these from left to right. -/
def nodes : Expr → List Expr
  | number x => [number x]
  | var name => [var name]
  | negate e => negate e :: nodes e
  | binary op lhs rhs => binary op lhs rhs :: (nodes lhs ++ nodes rhs)
  | call name args => call name args :: nodesOfAll args

def nodesOfAll : List Expr → List Expr
  | [] => []
  | e :: es => nodes e ++ nodesOfAll es

end

theorem nodesOfAll_eq (es : List Expr) : nodesOfAll es = es.flatMap nodes := by
  induction es with
  | nil => rfl
  | cons e es ih => rw [nodesOfAll, List.flatMap_cons, ih]

theorem mem_nodesOfAll {node : Expr} {es : List Expr} :
    node ∈ nodesOfAll es ↔ ∃ e ∈ es, node ∈ e.nodes := by
  rw [nodesOfAll_eq, List.mem_flatMap]

theorem mem_nodes_call {node e : Expr} {name : String} {args : List Expr} (mem : e ∈ args)
    (inside : node ∈ e.nodes) : node ∈ (call name args).nodes := by
  rw [nodes, List.mem_cons, mem_nodesOfAll]
  exact .inr ⟨e, mem, inside⟩

end Commission.Expr
