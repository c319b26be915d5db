import Commission.Rule.Line

/-!
From the lines of a block to a rule. Sections may come in any order and more than once; the last
header and the last calculation count, conditions and notes add up. `Policy` decides about lines
that have no place.
-/
namespace Commission

/-- What happens to a body line before the first section, and to a second header. -/
inductive Policy where
  | lenient
  | strict
  deriving DecidableEq, Repr

structure Draft where
  header : Option (String × Int64) := none
  inside : Option Section := none
  conditions : List Condition := []
  calculation : Option String := none
  notes : List String := []
  deriving DecidableEq, Repr

namespace Draft

def push (policy : Policy) (number : Nat) (content : LineContent) (d : Draft) :
    Except ParseError Draft :=
  match content, d.inside with
  | .header name priority, _ =>
    if d.header.isSome ∧ policy = .strict then .error (.duplicateHeader number name)
    else .ok { d with header := some (name, priority) }
  | .marker opened, _ => .ok { d with inside := some opened }
  | .condition c, some .conditions => .ok { d with conditions := d.conditions ++ [c] }
  | .calculation text, some .calculation => .ok { d with calculation := some text }
  | .note text, some .notes => .ok { d with notes := d.notes ++ [text] }
  | content, _ =>
    match policy with
    | .strict => .error (.outsideSection number content.describe)
    | .lenient => .ok d

def step (policy : Policy) (d : Draft) (line : Text.NumberedLine) : Except ParseError Draft := do
  let read ← Line.read line.number line.text d.inside
  d.push policy line.number read.content

def finish (d : Draft) : Except ParseError Rule :=
  match d.header, d.calculation with
  | none, _ => .error .missingHeader
  | some (name, _), none => .error (.missingCalculation name)
  | some (name, priority), some text =>
    let notes := if d.notes.isEmpty then none else some ("\n".intercalate d.notes)
    .ok ⟨name, priority, d.conditions, trimmed text, notes⟩

end Draft

namespace Rule

def ofBlock (policy : Policy) (block : List Text.NumberedLine) : Except ParseError Rule := do
  let draft ← block.foldlM (Draft.step policy) {}
  draft.finish

def parse (policy : Policy) (text : String) : Except ParseError Rule :=
  match Text.blocks text.toList with
  | [] => ofBlock policy []
  | [block] => ofBlock policy block
  | _ :: second :: _ => .error (.multipleRules ((second.head?.map (·.number)).getD 0))

def parseAll (policy : Policy) (text : String) : Except ParseError (List Rule) :=
  (Text.blocks text.toList).mapM (ofBlock policy)

end Rule

end Commission
