import Commission.Text.Basic

/-!
Lines of a text and the blocks that blank lines leave between them. Numbers are positions among
all lines, so a block knows where it stands in the whole text.
-/
namespace Commission.Text

/-- A line ends before a line feed, with or without a carriage return in front of it. Text after
    the last line feed is a line of its own if there is any. -/
def lines : List Char → List (List Char)
  | [] => []
  | '\n' :: cs => [] :: lines cs
  | '\r' :: '\n' :: cs => [] :: lines cs
  | c :: cs =>
    match lines cs with
    | [] => [[c]]
    | line :: rest => (c :: line) :: rest

structure NumberedLine where
  number : Nat
  text : List Char
  deriving DecidableEq, Repr

def numberFrom (first : Nat) : List (List Char) → List NumberedLine
  | [] => []
  | line :: rest => ⟨first, line⟩ :: numberFrom (first + 1) rest

def numberedLines (cs : List Char) : List NumberedLine := numberFrom 1 (lines cs)

def closeRun (run : List NumberedLine) (later : List (List NumberedLine)) :
    List (List NumberedLine) :=
  if run.isEmpty then later else run :: later

def splitRun : List NumberedLine → List NumberedLine × List (List NumberedLine)
  | [] => ([], [])
  | line :: rest =>
    let (run, later) := splitRun rest
    if isBlankLine line.text then ([], closeRun run later) else (line :: run, later)

def blocks (cs : List Char) : List (List NumberedLine) :=
  let (run, later) := splitRun (numberedLines cs)
  closeRun run later

theorem closeRun_flatten (run : List NumberedLine) (later : List (List NumberedLine)) :
    (closeRun run later).flatten = run ++ later.flatten := by
  cases run <;> simp [closeRun]

theorem splitRun_flatten (ls : List NumberedLine) :
    (splitRun ls).1 ++ (splitRun ls).2.flatten = ls.filter (fun l => !isBlankLine l.text) := by
  induction ls with
  | nil => rfl
  | cons line rest ih =>
    by_cases blank : isBlankLine line.text
    · simpa [splitRun, blank, closeRun_flatten] using ih
    · simpa [splitRun, blank] using ih

/-- Splitting into blocks drops blank lines and nothing else. -/
theorem blocks_flatten (cs : List Char) :
    (blocks cs).flatten = (numberedLines cs).filter (fun l => !isBlankLine l.text) := by
  simp only [blocks, closeRun_flatten, splitRun_flatten]

end Commission.Text
