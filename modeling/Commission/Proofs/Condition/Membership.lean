import Commission.Gate

/-!
Membership against equality. A list is searched for the value of a field as it stands, while a
scalar operand may first be replaced by an entry of the context, so the two agree on items that
name no entry. Main statement: `membership_is_equality`.
-/
namespace Commission

theorem Scalar.kind_of_strictEq {a b : Scalar} (same : a.strictEq b = true) : a.kind = b.kind := by
  cases a with
  | int m | float x =>
    cases b with
    | int n | float y => rfl
    | bool w | text t => contradiction
  | bool v =>
    cases b with
    | bool w => rfl
    | _ => contradiction
  | text s =>
    cases b with
    | text t => rfl
    | _ => contradiction

namespace Condition
variable {ctx : Context} {field : String} {actual : Value} {items others : List Scalar}

/-- The item stands for itself: it is no text that names an entry. -/
def IsLiteral (ctx : Context) (item : Scalar) : Prop :=
  ∀ name, item = .text name → ctx.get? name = none

theorem operand_of_literal {item : Scalar} (literal : IsLiteral ctx item) :
    operand ctx (.scalar item) = .scalar item := by
  cases item with
  | text name =>
    rw [operand, literal name rfl]
    rfl
  | _ => rfl

theorem eval_isIn (bound : ctx.get? field = some actual) (items : List Scalar) :
    eval ctx ⟨field, .isIn, .list items⟩ = .ok (isMember actual items) := by
  rw [eval, bound]
  rfl

theorem compares_eq_scalar (actual : Value) (item : Scalar) :
    compares actual .eq (.scalar item) = actual.strictEq (.scalar item) := by
  cases actual with
  | scalar s => rfl
  | list values => rfl

theorem eval_eq_literal (bound : ctx.get? field = some actual) {item : Scalar}
    (literal : IsLiteral ctx item) :
    eval ctx ⟨field, .eq, .scalar item⟩ = .ok (actual.strictEq (.scalar item)) := by
  rw [← compares_eq_scalar, eval, bound]
  simp only [operand_of_literal literal]

theorem isMember_iff :
    isMember actual items = true ↔ ∃ item ∈ items, actual.strictEq (.scalar item) = true := by
  cases actual with
  | scalar s => exact List.any_eq_true
  | list values => simp [isMember, Value.strictEq]

theorem isMember_congr (same : ∀ item, item ∈ others ↔ item ∈ items) :
    isMember actual others = isMember actual items := by
  rw [Bool.eq_iff_iff, isMember_iff, isMember_iff]
  simp only [same]

theorem kind_of_equal {item : Scalar} (equal : actual.strictEq (.scalar item) = true) :
    item.kind = actual.kind := by
  cases actual with
  | scalar s => exact (Scalar.kind_of_strictEq equal).symm
  | list values => contradiction

theorem isMember_of_kinds (other : ∀ item ∈ items, item.kind ≠ actual.kind) :
    isMember actual items = false := by
  rw [← Bool.not_eq_true, isMember_iff]
  rintro ⟨item, mem, equal⟩
  exact other item mem (kind_of_equal equal)

end Condition

open Condition (IsLiteral)

/-- A field is in a list of literals exactly if it equals one of them. Neither condition fails, the
    order and the repetition of items do not count, no item of another kind matches, and a list is
    a member of nothing. -/
theorem membership_is_equality {ctx : Context} {field : String} {actual : Value}
    (bound : ctx.get? field = some actual) {items : List Scalar}
    (literal : ∀ item ∈ items, IsLiteral ctx item) :
    (∃ verdict, Condition.eval ctx ⟨field, .isIn, .list items⟩ = .ok verdict) ∧
    (∀ item ∈ items, ∃ verdict, Condition.eval ctx ⟨field, .eq, .scalar item⟩ = .ok verdict) ∧
    (Condition.eval ctx ⟨field, .isIn, .list items⟩ = .ok true ↔
      ∃ item ∈ items, Condition.eval ctx ⟨field, .eq, .scalar item⟩ = .ok true) ∧
    (∀ others : List Scalar, (∀ item, item ∈ others ↔ item ∈ items) →
      Condition.eval ctx ⟨field, .isIn, .list others⟩ =
        Condition.eval ctx ⟨field, .isIn, .list items⟩) ∧
    (∀ item ∈ items, Condition.eval ctx ⟨field, .eq, .scalar item⟩ = .ok true →
      item.kind = actual.kind) ∧
    ((∀ item ∈ items, item.kind ≠ actual.kind) →
      Condition.eval ctx ⟨field, .isIn, .list items⟩ = .ok false) ∧
    ∀ values, actual = .list values →
      Condition.eval ctx ⟨field, .isIn, .list items⟩ = .ok false := by
  have membership := Condition.eval_isIn bound
  have equality : ∀ item ∈ items, Condition.eval ctx ⟨field, .eq, .scalar item⟩ =
      .ok (actual.strictEq (.scalar item)) := by
    intro item mem
    exact Condition.eval_eq_literal bound (literal item mem)
  have holds : ∀ item ∈ items, Condition.eval ctx ⟨field, .eq, .scalar item⟩ = .ok true ↔
      actual.strictEq (.scalar item) = true := by
    intro item mem
    rw [equality item mem, Except.ok.injEq]
  refine ⟨⟨_, membership items⟩, ?_, ?_, ?_, ?_, ?_, ?_⟩
  · intro item mem
    exact ⟨_, equality item mem⟩
  · rw [membership, Except.ok.injEq, Condition.isMember_iff]
    constructor
    · rintro ⟨item, mem, equal⟩
      exact ⟨item, mem, (holds item mem).mpr equal⟩
    · rintro ⟨item, mem, equal⟩
      exact ⟨item, mem, (holds item mem).mp equal⟩
  · intro others same
    rw [membership, membership, Condition.isMember_congr same]
  · intro item mem equal
    exact Condition.kind_of_equal ((holds item mem).mp equal)
  · intro other
    rw [membership, Condition.isMember_of_kinds other]
  · rintro values rfl
    rw [membership]
    rfl

def salesContext : Context :=
  .ofList [("region", .scalar (.text "emea")), ("code", .scalar (.text "3")),
    ("regions", .list [.text "emea"])]

def listedItems : List Scalar := [.text "apac", .int 3, .text "emea"]

theorem membership_is_equality_listed :
    (∀ item ∈ listedItems, IsLiteral salesContext item) ∧
    Condition.eval salesContext ⟨"region", .isIn, .list listedItems⟩ = .ok true ∧
    Condition.eval salesContext
      ⟨"region", .isIn, .list [.text "emea", .int 3, .text "emea", .text "apac"]⟩ = .ok true ∧
    Condition.eval salesContext ⟨"code", .isIn, .list [.int 3]⟩ = .ok false ∧
    Condition.eval salesContext ⟨"regions", .isIn, .list listedItems⟩ = .ok false := by
  have literal : ∀ item ∈ listedItems, IsLiteral salesContext item := by
    intro item mem name same
    subst same
    have listed : name = "apac" ∨ name = "emea" := by simpa [listedItems] using mem
    rcases listed with rfl | rfl
    · decide
    · decide
  have number : ∀ item ∈ [Scalar.int 3], IsLiteral salesContext item := by simp [IsLiteral]
  have region : salesContext.get? "region" = some (.scalar (.text "emea")) := rfl
  have code : salesContext.get? "code" = some (.scalar (.text "3")) := rfl
  have regions : salesContext.get? "regions" = some (.list [.text "emea"]) := rfl
  obtain ⟨-, -, member, orderless, -⟩ := membership_is_equality region literal
  have found : Condition.eval salesContext ⟨"region", .isIn, .list listedItems⟩ = .ok true :=
    member.mpr ⟨.text "emea", by decide, rfl⟩
  refine ⟨literal, found, ?_, ?_, ?_⟩
  · refine (orderless _ ?_).trans found
    intro item
    simp only [listedItems, List.mem_cons, List.not_mem_nil, or_false]
    grind
  · obtain ⟨-, -, -, -, -, kinds, -⟩ := membership_is_equality code number
    exact kinds (by simp [Scalar.kind, Value.kind])
  · obtain ⟨-, -, -, -, -, -, lists⟩ := membership_is_equality regions literal
    exact lists _ rfl

/-- Where an item names an entry, equality looks at the entry and membership at the item. -/
example :
    let ctx : Context := .ofList [("home", .scalar (.text "emea")), ("region", .scalar (.text "emea"))]
    Condition.eval ctx ⟨"region", .eq, .scalar (.text "home")⟩ = .ok true ∧
      Condition.eval ctx ⟨"region", .isIn, .list [.text "home"]⟩ = .ok false :=
  ⟨rfl, rfl⟩

end Commission
