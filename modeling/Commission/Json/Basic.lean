import Commission.Value.Reading

/-!
JSON values as trees, and formats that write trees as texts. What the library makes of trees does
not depend on the format, which stands for the JSON writer and reader of its user.
-/
namespace Commission

/-- Members of an object stay in order and may repeat. A part that a reader can pass over but not
    give as a value, such as a number out of range, is `unreadable`. -/
inductive Json where
  | null
  | bool (b : Bool)
  | int (n : Int)
  | float (x : Binary64)
  | text (s : String)
  | array (items : List Json)
  | object (members : List (String × Json))
  | unreadable
  deriving Repr

namespace Json

structure Format where
  write : Json → String
  read? : String → Option Json

def Format.back? (F : Format) (j : Json) : Option Json := F.read? (F.write j)

def toBool? : Json → Option Bool
  | bool b => some b
  | _ => none

def toInt64? : Json → Option Int64
  | int n => int64? n
  | _ => none

/-- An integer is taken for the nearest float. -/
def toFloat? : Json → Option Binary64
  | float x => some x
  | int n => some (.ofInt n)
  | _ => none

def toText? : Json → Option String
  | text s => some s
  | _ => none

def toItems? : Json → Option (List Json)
  | array items => some items
  | _ => none

def untagged {α : Type} (alternatives : List (Json → Option α)) (j : Json) : Option α :=
  alternatives.findSome? fun take => take j

section
variable {α : Type} {take : Json → Option α} {j : Json}

theorem untagged_taken {a : α} (taken : take j = some a) (others : List (Json → Option α)) :
    untagged (take :: others) j = some a := by
  rw [untagged, List.findSome?_cons, taken]

theorem untagged_passed (passed : take j = none) (others : List (Json → Option α)) :
    untagged (take :: others) j = untagged others j := by
  rw [untagged, List.findSome?_cons, passed]
  rfl

end

/-- The one value of a key: an error if the key repeats, nothing if it is missing. -/
def member (key : String) (members : List (String × Json)) : Except Unit (Option Json) :=
  match members.filter (fun m => m.1 == key) with
  | [] => .ok none
  | [(_, value)] => .ok (some value)
  | _ => .error ()

/-- The fields of a record in the order of their names, each present or missing. An array gives
    the first fields and may not be longer than the record; of an object the members that are
    not fields are passed over. -/
def fields? (names : List String) : Json → Option (List (Option Json))
  | array items =>
    if items.length ≤ names.length then
      some (items.map some ++ List.replicate (names.length - items.length) none)
    else none
  | object members => names.mapM fun name => (member name members).toOption
  | _ => none

end Json

end Commission
