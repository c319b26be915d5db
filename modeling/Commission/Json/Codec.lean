import Commission.Context
import Commission.Json.Reading
import Commission.Rule

/-!
Rules and their parts as JSON. Scalars and values carry no mark of their kind: they are read as
the first kind that takes the tree, in the order in which the kinds are listed. Records are
objects whose keys stand in the order of their fields.
-/
namespace Commission

namespace Scalar

def toJson : Scalar → Json
  | int n => .int n.toInt
  | float x => .float x
  | bool b => .bool b
  | text s => .text s

def ofJson? : Json → Option Scalar :=
  Json.untagged [fun j => j.toInt64?.map int, fun j => j.toFloat?.map float,
    fun j => j.toBool?.map bool, fun j => j.toText?.map text]

end Scalar

namespace Value

def toJson : Value → Json
  | scalar s => s.toJson
  | list items => .array (items.map Scalar.toJson)

def ofJson? : Json → Option Value :=
  Json.untagged [fun j => (Scalar.ofJson? j).map scalar,
    fun j => do return list (← (← j.toItems?).mapM Scalar.ofJson?)]

end Value

namespace Operator

def jsonName : Operator → String
  | eq => "=="
  | ne => "!="
  | gt => ">"
  | ge => ">="
  | lt => "<"
  | le => "<="
  | isIn => "in"

def ofJsonName? (name : String) : Option Operator := all.find? (fun op => op.jsonName == name)

def toJson (op : Operator) : Json := .text op.jsonName

/-- A name, or an object with the name as its only key and no content. -/
def ofJson? : Json → Option Operator
  | .text name => ofJsonName? name
  | .object [(name, .null)] => ofJsonName? name
  | _ => none

end Operator

namespace Condition

def toJson (c : Condition) : Json :=
  .object [("field", .text c.field), ("operator", c.operator.toJson), ("value", c.value.toJson)]

def ofJson? (j : Json) : Option Condition := do
  match ← j.fields? ["field", "operator", "value"] with
  | [some field, some operator, some value] =>
    let field ← field.toText?
    let operator ← Operator.ofJson? operator
    let value ← Value.ofJson? value
    return ⟨field, operator, value⟩
  | _ => none

end Condition

namespace Rule

def calculationToJson (text : String) : Json := .object [("expression", .text text)]

def calculationOfJson? (j : Json) : Option String := do
  match ← j.fields? ["expression"] with
  | [some text] => text.toText?
  | _ => none

/-- Notes are left out if there are none. -/
def members (r : Rule) (conditions : List Json) : List (String × Json) :=
  [("name", .text r.name), ("priority", .int r.priority.toInt), ("conditions", .array conditions),
    ("calculation", calculationToJson r.calculation)] ++
    r.notes.toList.map fun text => ("notes", .text text)

def toJson (r : Rule) : Json := .object (r.members (r.conditions.map Condition.toJson))

def notesOfJson? : Option Json → Option (Option String)
  | none | some .null => some none
  | some j => j.toText?.map some

def ofJson? (j : Json) : Option Rule := do
  match ← j.fields? ["name", "priority", "conditions", "calculation", "notes"] with
  | [some name, some priority, some conditions, some calculation, notes] =>
    let name ← name.toText?
    let priority ← priority.toInt64?
    let conditions ← (← conditions.toItems?).mapM Condition.ofJson?
    let calculation ← calculationOfJson? calculation
    let notes ← notesOfJson? notes
    return ⟨name, priority, conditions, calculation, notes⟩
  | _ => none

end Rule

namespace Json

def ofEntry : String × Value → String × Json
  | (name, value) => (name, value.toJson)

def toEntry? : String × Json → Option (String × Value)
  | (name, value) => (Value.ofJson? value).map fun v => (name, v)

def ofEntries (entries : List (String × Value)) : Json := .object (entries.map ofEntry)

def ofContext (ctx : Context) : Json := ofEntries ctx.entries

/-- Of members with one key the last one counts. -/
def toContext? : Json → Option Context
  | .object members => (members.mapM toEntry?).map NameMap.ofList
  | _ => none

end Json

end Commission
