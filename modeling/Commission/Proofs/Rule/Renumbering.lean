import Commission.Proofs.Failure
import Commission.Rule.Draft

/-!
Numbers of lines show in errors and nowhere else: counting the lines of a block in another way gives
the same rule, or the same error with its line counted in that way.
-/
namespace Commission

open Text (NumberedLine)

def ParseError.renumber (f : Nat → Nat) : ParseError → ParseError
  | unreadable line text expected => unreadable (f line) text expected
  | outsideSection line text => outsideSection (f line) text
  | duplicateHeader line name => duplicateHeader (f line) name
  | multipleRules line => multipleRules (f line)
  | e => e

def Text.NumberedLine.renumber (f : Nat → Nat) (line : NumberedLine) : NumberedLine :=
  { line with number := f line.number }

section Renumber
variable (policy : Policy) (f : Nat → Nat)

theorem contentOf_renumber (number depth : Nat) (body : List Char) (inside : Option Section) :
    Line.contentOf (f number) depth body inside =
      (Line.contentOf number depth body inside).mapError (ParseError.renumber f) := by
  unfold Line.contentOf
  repeat' split
  all_goals rfl

theorem read_renumber (number : Nat) (text : List Char) (inside : Option Section) :
    Line.read (f number) text inside =
      (Line.read number text inside).mapError (ParseError.renumber f) := by
  rw [Line.read, Line.read, contentOf_renumber]
  cases Line.contentOf number (Line.depthOf (Text.trimEnd text)) (Text.trim text) inside <;> rfl

theorem push_renumber (number : Nat) (content : LineContent) (d : Draft) :
    d.push policy (f number) content =
      (d.push policy number content).mapError (ParseError.renumber f) := by
  unfold Draft.push
  repeat' split
  all_goals rfl

theorem step_renumber (d : Draft) (line : NumberedLine) :
    d.step policy (line.renumber f) =
      (d.step policy line).mapError (ParseError.renumber f) := by
  rw [Draft.step, Draft.step, mapError_bind, NumberedLine.renumber, read_renumber]
  simp only [push_renumber]

theorem finish_renumber (d : Draft) : d.finish.mapError (ParseError.renumber f) = d.finish := by
  unfold Draft.finish
  split <;> rfl

theorem ofBlock_renumber (block : List NumberedLine) :
    Rule.ofBlock policy (block.map (NumberedLine.renumber f)) =
      (Rule.ofBlock policy block).mapError (ParseError.renumber f) := by
  rw [Rule.ofBlock, Rule.ofBlock, mapError_bind, foldlM_mapError (step_renumber policy f)]
  simp only [finish_renumber]

end Renumber

def ParseError.unnumbered : ParseError → ParseError := renumber fun _ => 0

theorem map_renumber_texts (number : Nat) {block other : List NumberedLine}
    (texts : block.map NumberedLine.text = other.map NumberedLine.text) :
    block.map (NumberedLine.renumber fun _ => number) =
      other.map (NumberedLine.renumber fun _ => number) := by
  have fromText : (NumberedLine.renumber fun _ => number) =
      NumberedLine.mk number ∘ NumberedLine.text := rfl
  rw [fromText, ← List.map_map, ← List.map_map, texts]

theorem ofBlock_texts (policy : Policy) {block other : List NumberedLine}
    (texts : block.map NumberedLine.text = other.map NumberedLine.text) :
    (Rule.ofBlock policy block).mapError ParseError.unnumbered =
      (Rule.ofBlock policy other).mapError ParseError.unnumbered := by
  rw [ParseError.unnumbered, ← ofBlock_renumber, ← ofBlock_renumber, map_renumber_texts 0 texts]

end Commission
