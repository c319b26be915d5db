import Commission.Proofs.Number.Order
import Commission.Proofs.Rule.Formation

/-!
How the comparison operators fit together. Equality and order are two tables over the kinds of
scalars, and they agree: two scalars are equal exactly if they are ordered as equal. Within one
family of scalars equality is an equivalence and the order total; from integer to float to integer
equality does not carry over. Main statement: `comparison_coherent`.
-/
namespace Commission

namespace Operator

def isOrder : Operator → Bool
  | gt | ge | lt | le => true
  | eq | ne | isIn => false

def opposite : Operator → Operator
  | eq => ne
  | ne => eq
  | gt => le
  | ge => lt
  | lt => ge
  | le => gt
  | isIn => isIn

def converse : Operator → Operator
  | gt => lt
  | ge => le
  | lt => gt
  | le => ge
  | op => op

def verdict? : Operator → Option Ordering → Option Bool
  | eq, order => some (order == some .eq)
  | ne, order => some (order != some .eq)
  | gt, order => order.map (· == .gt)
  | ge, order => order.map (· != .lt)
  | lt, order => order.map (· == .lt)
  | le, order => order.map (· != .gt)
  | isIn, _ => none

theorem verdict?_isSome {op : Operator} (needs : op.isOrder) (order : Option Ordering) :
    (op.verdict? order).isSome = order.isSome := by
  cases op with
  | gt | ge | lt | le => exact Option.isSome_map
  | eq | ne | isIn => contradiction

theorem verdict?_opposite (op : Operator) (order : Option Ordering) :
    op.opposite.verdict? order = (op.verdict? order).map not := by
  cases order with
  | none => cases op <;> rfl
  | some order => cases op <;> cases order <;> rfl

theorem verdict?_swap (op : Operator) (order : Option Ordering) :
    op.converse.verdict? (order.map Ordering.swap) = op.verdict? order := by
  cases order with
  | none => cases op <;> rfl
  | some order => cases op <;> cases order <;> rfl

end Operator

namespace Scalar

/-! ## One table from the other -/

theorem strictEq_eq_order (a b : Scalar) : a.strictEq b = (a.order? b == some .eq) := by
  cases a with
  | int m =>
    cases b with
    | int n =>
      rw [Bool.eq_iff_iff]
      simp [strictEq, order?, Int64.toInt_inj]
    | _ => rfl
  | float x => cases b <;> rfl
  | bool v =>
    cases b with
    | bool w => cases v <;> cases w <;> rfl
    | _ => rfl
  | text s =>
    cases b with
    | text t =>
      have equal : compareOfLessAndEq s t = .eq ↔ s = t :=
        compareOfLessAndEq_eq_eq String.le_refl String.not_le
      rw [Bool.eq_iff_iff]
      simp [strictEq, order?, equal]
    | _ => rfl

theorem order?_swap (a b : Scalar) : b.order? a = (a.order? b).map Ordering.swap := by
  cases a with
  | int m =>
    cases b with
    | int n => exact congrArg some Std.OrientedOrd.eq_swap
    | float y => exact Binary64.compare?_swap _ _
    | _ => rfl
  | float x =>
    cases b with
    | int n => exact Binary64.compare?_swap _ _
    | float y => exact Binary64.compare?_swap _ _
    | _ => rfl
  | bool v =>
    cases b with
    | bool w => exact congrArg some Std.OrientedOrd.eq_swap
    | _ => rfl
  | text s =>
    cases b with
    | text t => exact congrArg some (Std.OrientedOrd.eq_swap (α := String))
    | _ => rfl

theorem strictEq_comm (a b : Scalar) : a.strictEq b = b.strictEq a := by
  rw [strictEq_eq_order, strictEq_eq_order, order?_swap a b]
  cases a.order? b with
  | none => rfl
  | some order => cases order <;> rfl

theorem strictEq_iff_order {a b : Scalar} : a.strictEq b = true ↔ a.order? b = some .eq := by
  rw [strictEq_eq_order, beq_iff_eq]

theorem strictEq_self_iff {a : Scalar} : a.strictEq a = true ↔ a.isNaN = false := by
  cases a with
  | float x => exact Binary64.eq_self_iff
  | _ => simp [strictEq, isNaN]

theorem compare?_eq_verdict (a b : Scalar) (op : Operator) :
    a.compare? op b = op.verdict? (a.order? b) := by
  cases op with
  | eq => exact congrArg some (strictEq_eq_order a b)
  | ne => exact congrArg (some !·) (strictEq_eq_order a b)
  | _ => rfl

/-! ## Laws between two scalars -/

structure Coherent (a b : Scalar) : Prop where
  decided : a.compare? .eq b = some (a.strictEq b)
  opposite : ∀ op : Operator, a.compare? op.opposite b = (a.compare? op b).map not
  together : ∀ op other : Operator, op.isOrder → other.isOrder →
    ((a.compare? op b).isSome ↔ (a.compare? other b).isSome)
  apart : ∀ op : Operator, op.isOrder → a.compare? op b = none → a.compare? .eq b = some false
  /-- Of less, equal and greater one holds, and no other. -/
  single : ∀ op : Operator, op.isOrder → (a.compare? op b).isSome →
    ∃ verdict ∈ [Operator.lt, .eq, .gt], ∀ other ∈ [Operator.lt, .eq, .gt],
      a.compare? other b = some (other == verdict)
  converse : ∀ op : Operator, a.compare? op b = b.compare? op.converse a

theorem coherent (a b : Scalar) : a.Coherent b := by
  constructor
  case decided => rfl
  case opposite =>
    intro op
    rw [compare?_eq_verdict, compare?_eq_verdict, Operator.verdict?_opposite]
  case together =>
    intro op other needs needs'
    rw [compare?_eq_verdict, compare?_eq_verdict, Operator.verdict?_isSome needs,
      Operator.verdict?_isSome needs']
  case apart =>
    intro op needs undecided
    rw [compare?_eq_verdict] at undecided ⊢
    have unordered : (a.order? b).isSome = false := by
      rw [← Operator.verdict?_isSome needs, undecided]
      rfl
    cases ordered : a.order? b with
    | none => rfl
    | some order => simp [ordered] at unordered
  case single =>
    intro op needs decided
    rw [compare?_eq_verdict, Operator.verdict?_isSome needs] at decided
    simp only [compare?_eq_verdict]
    obtain ⟨order, ordered⟩ := Option.isSome_iff_exists.mp decided
    rw [ordered]
    cases order with
    | lt => exact ⟨.lt, by decide, by decide⟩
    | eq => exact ⟨.eq, by decide, by decide⟩
    | gt => exact ⟨.gt, by decide, by decide⟩
  case converse =>
    intro op
    rw [compare?_eq_verdict, compare?_eq_verdict, order?_swap a b, Operator.verdict?_swap]

/-! ## Families -/

/-- The scalars are sorted into families for their order: an integer and a float are of two, and a
    NaN is of none. -/
inductive Family where
  | integers
  | floats
  | booleans
  | texts
  deriving DecidableEq, Repr

inductive Family.Has : Family → Scalar → Prop where
  | int (n : Int64) : Has .integers (.int n)
  | float {x : Binary64} (number : x.isNaN = false) : Has .floats (.float x)
  | bool (b : Bool) : Has .booleans (.bool b)
  | text (s : String) : Has .texts (.text s)

/-- Within the family `==` is an equivalence and `<` a total order up to it. -/
structure Family.Ordered (f : Family) : Prop where
  refl : ∀ {a}, f.Has a → a.strictEq a
  symm : ∀ {a b}, f.Has a → f.Has b → a.strictEq b → b.strictEq a
  trans : ∀ {a b c}, f.Has a → f.Has b → f.Has c → a.strictEq b → b.strictEq c → a.strictEq c
  lt_trans : ∀ {a b c}, f.Has a → f.Has b → f.Has c →
    a.compare? .lt b = some true → b.compare? .lt c = some true → a.compare? .lt c = some true
  total : ∀ {a b}, f.Has a → f.Has b →
    a.compare? .lt b = some true ∨ a.strictEq b ∨ b.compare? .lt a = some true

theorem less_iff_order {a b : Scalar} :
    a.compare? .lt b = some true ↔ a.order? b = some .lt := by
  rw [compare?]
  cases a.order? b with
  | none => simp
  | some order => simp

theorem Family.ordered_of_key {f : Family} {α β : Type} [Ord β] [Std.TransOrd β]
    (make : α → Scalar) (key : α → β) (made : ∀ {s}, f.Has s → ∃ k, s = make k)
    (keyed : ∀ k l, (make k).order? (make l) = some (compare (key k) (key l))) : f.Ordered := by
  constructor
  case refl =>
    intro a has
    obtain ⟨k, rfl⟩ := made has
    rw [strictEq_iff_order, keyed, Std.ReflOrd.compare_self]
  case symm =>
    intro a b has has' same
    rwa [strictEq_comm]
  case trans =>
    intro a b c first second third same same'
    obtain ⟨k, rfl⟩ := made first
    obtain ⟨l, rfl⟩ := made second
    obtain ⟨m, rfl⟩ := made third
    rw [strictEq_iff_order, keyed, Option.some.injEq] at same same'
    rw [strictEq_iff_order, keyed, Std.TransCmp.eq_trans same same']
  case lt_trans =>
    intro a b c first second third less less'
    obtain ⟨k, rfl⟩ := made first
    obtain ⟨l, rfl⟩ := made second
    obtain ⟨m, rfl⟩ := made third
    rw [less_iff_order, keyed, Option.some.injEq] at less less'
    rw [less_iff_order, keyed, Std.TransCmp.lt_trans less less']
  case total =>
    intro a b has has'
    obtain ⟨k, rfl⟩ := made has
    obtain ⟨l, rfl⟩ := made has'
    rw [less_iff_order, less_iff_order, strictEq_iff_order, keyed, keyed]
    cases order : compare (key k) (key l) with
    | lt => exact .inl rfl
    | eq => exact .inr (.inl rfl)
    | gt => exact .inr (.inr (congrArg some (Std.OrientedCmp.lt_of_gt order)))

theorem Family.ordered (f : Family) : f.Ordered := by
  cases f with
  | integers =>
    apply ordered_of_key int Int64.toInt
    · intro s has
      cases has with
      | int n => exact ⟨n, rfl⟩
    · intro m n
      rfl
  | floats =>
    -- Of a float that is no NaN only its place on the line counts, so both zeros have one key.
    apply ordered_of_key (fun x : { x : Binary64 // x.isNaN = false } => float x.val)
      fun x => x.val.ordinate?.getD 0
    · intro s has
      cases has with
      | float number => exact ⟨⟨_, number⟩, rfl⟩
    · intro x y
      obtain ⟨i, place⟩ := Binary64.exists_ordinate x.property
      obtain ⟨j, place'⟩ := Binary64.exists_ordinate y.property
      simp [order?, Binary64.compare?, place, place']
  | booleans =>
    apply ordered_of_key bool Bool.toNat
    · intro s has
      cases has with
      | bool b => exact ⟨b, rfl⟩
    · intro b c
      rfl
  | texts =>
    apply ordered_of_key text id
    · intro s has
      cases has with
      | text t => exact ⟨t, rfl⟩
    · intro s t
      rfl

end Scalar

/-! ## Values -/

namespace Value

theorem all_zip_comm (as bs : List Scalar) :
    ((as.zip bs).all fun (a, b) => a.strictEq b) =
      (bs.zip as).all fun (b, a) => b.strictEq a := by
  induction as generalizing bs with
  | nil => simp
  | cons a as ih =>
    cases bs with
    | nil => rfl
    | cons b bs =>
      rw [List.zip_cons_cons, List.zip_cons_cons, List.all_cons, List.all_cons, ih bs]
      exact congrArg (· && _) (Scalar.strictEq_comm a b)

theorem strictEq_comm (u v : Value) : u.strictEq v = v.strictEq u := by
  cases u with
  | scalar a =>
    cases v with
    | scalar b => exact a.strictEq_comm b
    | list bs => rfl
  | list as =>
    cases v with
    | scalar b => rfl
    | list bs =>
      rw [strictEq, strictEq, all_zip_comm as bs, Bool.beq_comm]

theorem strictEq_self_iff {v : Value} :
    v.strictEq v = true ↔ ∀ s ∈ v.scalars, s.isNaN = false := by
  cases v with
  | scalar s => simp [strictEq, scalars, Scalar.strictEq_self_iff]
  | list items =>
    have pairs : items.zip items = items.map fun s => (s, s) := List.zipWith_self
    simp [strictEq, scalars, pairs, Scalar.strictEq_self_iff]

end Value

/-! ## Conditions -/

namespace Condition
variable {ctx : Context} {field : String} {v : Value} {a b : Scalar}

theorem eval_of_scalars (bound : ctx.get? field = some (.scalar a))
    (resolved : operand ctx v = .scalar b) {op : Operator} (notIn : op ≠ .isIn) :
    eval ctx ⟨field, op, v⟩ = .ok ((a.compare? op b).getD false) := by
  rw [eval, bound]
  cases op with
  | isIn => contradiction
  | _ => simp only [resolved, compares]

theorem holds_iff (bound : ctx.get? field = some (.scalar a))
    (resolved : operand ctx v = .scalar b) {op : Operator} (notIn : op ≠ .isIn) :
    eval ctx ⟨field, op, v⟩ = .ok true ↔ a.compare? op b = some true := by
  rw [eval_of_scalars bound resolved notIn, Except.ok.injEq]
  cases a.compare? op b <;> simp

end Condition

/-- Equality and order agree between any two scalars, order is total within a family, equality of
    values is symmetric and fails on itself only at a NaN, and so conditions with `>=` or `<=` hold
    exactly where one with `>` or `<` or one with `==` does. -/
theorem comparison_coherent :
    (∀ a b : Scalar, a.Coherent b) ∧ (∀ f : Scalar.Family, f.Ordered) ∧
    (∀ u v : Value, u.strictEq v = v.strictEq u) ∧
    (∀ v : Value, v.strictEq v = true ↔ ∀ s ∈ v.scalars, s.isNaN = false) ∧
    ∀ (ctx : Context) (field : String) (v : Value) (a b : Scalar),
      ctx.get? field = some (.scalar a) → Condition.operand ctx v = .scalar b →
      (Condition.eval ctx ⟨field, .ge, v⟩ = .ok true ↔
        Condition.eval ctx ⟨field, .gt, v⟩ = .ok true ∨
          Condition.eval ctx ⟨field, .eq, v⟩ = .ok true) ∧
      (Condition.eval ctx ⟨field, .le, v⟩ = .ok true ↔
        Condition.eval ctx ⟨field, .lt, v⟩ = .ok true ∨
          Condition.eval ctx ⟨field, .eq, v⟩ = .ok true) := by
  refine ⟨Scalar.coherent, Scalar.Family.ordered, Value.strictEq_comm,
    fun v => Value.strictEq_self_iff, ?_⟩
  intro ctx field v a b bound resolved
  rw [Condition.holds_iff bound resolved (by decide), Condition.holds_iff bound resolved (by decide),
    Condition.holds_iff bound resolved (by decide), Condition.holds_iff bound resolved (by decide),
    Condition.holds_iff bound resolved (by decide)]
  simp only [Scalar.compare?_eq_verdict]
  cases a.order? b with
  | none => decide
  | some order => cases order <;> decide

def targetContext : Context :=
  .ofList [("quota", .scalar (.int 5)), ("target", .scalar (.float (Binary64.ofInt 5)))]

theorem comparison_coherent_target :
    Condition.operand targetContext (.scalar (.text "target")) =
      .scalar (.float (Binary64.ofInt 5)) ∧
    Condition.eval targetContext ⟨"quota", .eq, .scalar (.text "target")⟩ = .ok true ∧
    Condition.eval targetContext ⟨"quota", .ge, .scalar (.text "target")⟩ = .ok true ∧
    Condition.eval targetContext ⟨"quota", .le, .scalar (.text "target")⟩ = .ok true ∧
    Value.strictEq (.list [.int 5, .float .nan]) (.list [.int 5, .float .nan]) = false ∧
    Scalar.compare? (.text "Emea") .lt (.text "emea") = some true ∧
    Scalar.compare? (.text "emea") .lt (.text "latam") = some true ∧
    Scalar.compare? (.text "Emea") .lt (.text "latam") = some true := by
  obtain ⟨-, families, -, reflexive, conditions⟩ := comparison_coherent
  have resolved : Condition.operand targetContext (.scalar (.text "target")) =
      .scalar (.float (Binary64.ofInt 5)) := rfl
  have equal : Condition.eval targetContext ⟨"quota", .eq, .scalar (.text "target")⟩ = .ok true := by
    apply toOption_eq_some_iff.mp
    decide +kernel
  obtain ⟨atLeast, atMost⟩ := conditions targetContext "quota" _ (.int 5) _ rfl resolved
  have first : Scalar.compare? (.text "Emea") .lt (.text "emea") = some true := by decide +kernel
  have second : Scalar.compare? (.text "emea") .lt (.text "latam") = some true := by decide +kernel
  refine ⟨resolved, equal, atLeast.mpr (.inr equal), atMost.mpr (.inr equal), ?_, first, second,
    (families .texts).lt_trans (.text _) (.text _) (.text _) first second⟩
  rw [← Bool.not_eq_true, reflexive]
  intro number
  have last : Scalar.isNaN (.float .nan) = false := number (.float .nan) (by simp [Value.scalars])
  simp [Scalar.isNaN, Binary64.isNaN] at last

end Commission
