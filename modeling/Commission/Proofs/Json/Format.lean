import Commission.Json.Reading
import Mathlib.Data.List.Forall2

/-!
What the library relies on in a JSON writer and reader. Nothing is asked about floats in general:
which of them are read back from their texts is left to the format. Main statement:
`Faithful.float`.
-/
namespace Commission.Json

/-- Some character stands only in numbers with a fraction or an exponent. -/
def IsPointed (text : String) : Prop := ∃ c ∈ text.toList, c = '.' ∨ c = 'e' ∨ c = 'E'

def Nested : Nat → Json → Prop
  | 0, array _ => False
  | 0, object _ => False
  | levels + 1, array items => ∀ item ∈ items, item.Nested levels
  | levels + 1, object members => ∀ m ∈ members, m.2.Nested levels
  | _, _ => True

/-- The nesting that every reader accepts. -/
def nestingLimit : Nat := 127

namespace Format

/-- Booleans, texts and integers of 64 bits are exact, finite floats are written with a fraction
    or an exponent, and no text with one of these is an integer. Items and members are read as
    they are read alone; members may come in another order. -/
structure Faithful (F : Format) : Prop where
  bool (b : Bool) : F.back? (.bool b) = some (.bool b)
  int (n : Int64) : F.back? (.int n.toInt) = some (.int n.toInt)
  text (s : String) : F.back? (.text s) = some (.text s)
  pointed {x : Binary64} : x.isFinite → IsPointed (F.write (.float x))
  plain {text : String} {n : Int} : F.read? text = some (.int n) → ¬ IsPointed text
  array {items read : List Json} : (Json.array items).Nested nestingLimit →
    List.Forall₂ (fun item j => F.back? item = some j) items read →
    F.back? (.array items) = some (.array read)
  object {members read : List (String × Json)} : (Json.object members).Nested nestingLimit →
    (members.map Prod.fst).Nodup →
    List.Forall₂ (fun m r => m.1 = r.1 ∧ F.back? m.2 = some r.2) members read →
    ∃ order : List (String × Json), order.Perm read ∧
      F.back? (.object members) = some (.object order)

/-- Read as a number, the text of the float is the float again. -/
structure Keeps (F : Format) (x : Binary64) : Prop where
  finite : x.isFinite
  back : (F.back? (.float x)).bind toFloat? = some x

theorem Faithful.float {F : Format} (faithful : F.Faithful) {x : Binary64} (keeps : F.Keeps x) :
    F.back? (.float x) = some (.float x) := by
  obtain ⟨j, read, number⟩ := Option.bind_eq_some_iff.mp keeps.back
  cases j with
  | float y =>
    obtain rfl : y = x := Option.some_inj.mp number
    exact read
  | int n => exact absurd (faithful.pointed keeps.finite) (faithful.plain read)
  | _ => contradiction

end Format

theorem Nested.succ {levels : Nat} {j : Json} (nested : j.Nested levels) :
    j.Nested (levels + 1) := by
  induction levels generalizing j with
  | zero => cases j <;> simp_all [Nested]
  | succ levels ih =>
    cases j with
    | array items => exact fun item mem => ih (nested item mem)
    | object members => exact fun m mem => ih (nested m mem)
    | _ => trivial

theorem Nested.mono {levels more : Nat} (le : levels ≤ more) {j : Json}
    (nested : j.Nested levels) : j.Nested more := by
  induction le with
  | refl => exact nested
  | step _ ih => exact ih.succ

end Commission.Json
