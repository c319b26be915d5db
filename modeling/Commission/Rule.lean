import Commission.Condition
import Commission.Text.Lines

/-!
Rules and their text. A rule pays the value of its calculation when all its conditions hold.
-/
namespace Commission

inductive Section where
  | conditions
  | calculation
  | notes
  deriving DecidableEq, Repr

def Section.keyword : Section → String
  | conditions => "When"
  | calculation => "Then"
  | notes => "Notes"

structure Rule where
  name : String
  priority : Int64
  conditions : List Condition
  calculation : String
  notes : Option String
  deriving DecidableEq, Repr

def trimmed (text : String) : String := String.ofList (Text.trim text.toList)

namespace Rule

def headerText (name : String) (priority : Int64) : List Char :=
  name.toList ++ [' ', '('] ++ integerText priority.toInt ++ [')']

def indented (line : List Char) : List Char := [' ', ' ', ' ', ' '] ++ line

def textLines (r : Rule) : List (List Char) :=
  [headerText r.name r.priority, Section.conditions.keyword.toList] ++
  r.conditions.map (fun c => indented c.ruleText) ++
  [Section.calculation.keyword.toList, indented r.calculation.toList] ++
  match r.notes with
  | none => []
  | some notes => Section.notes.keyword.toList :: (Text.lines notes.toList).map indented

def render (r : Rule) : String := String.ofList (['\n'].intercalate r.textLines)

def alike (a b : Rule) : Bool :=
  a.name == b.name && a.priority == b.priority && a.calculation == b.calculation &&
    a.notes == b.notes && a.conditions.length == b.conditions.length &&
    (a.conditions.zip b.conditions).all fun (c, d) => c.alike d

end Rule

end Commission
