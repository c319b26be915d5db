import Commission.Proofs.Text.Paragraphs

/-!
Two texts with an empty line between them. The blocks of the whole are those of the first text and
then those of the second one, counted from further down; only the blanks at the ends of lines may
differ, because a carriage return before the joint becomes part of a line break.
-/
namespace Commission.Text

theorem trimEnd_trimEnd (cs : List Char) : trimEnd (trimEnd cs) = trimEnd cs :=
  trimEnd_of_last (trimEnd_last cs)

theorem trimEnd_concat {c : Char} (blank : isBlank c) (cs : List Char) :
    trimEnd (cs ++ [c]) = trimEnd cs := by
  simp [trimEnd, blank]

theorem isBlankLine_trimEnd (cs : List Char) : isBlankLine (trimEnd cs) = isBlankLine cs := by
  obtain ⟨after, split, blank⟩ := trimEnd_split cs
  have all : after.all isBlank = true := List.all_eq_true.mpr blank
  conv => rhs; rw [split]
  simp [isBlankLine, all]

theorem trimEnd_endLine (line : List Char) : trimEnd (endLine line) = trimEnd line := by
  unfold endLine
  split
  · next last =>
    obtain ⟨init, rfl⟩ := List.getLast?_eq_some_iff.mp last
    rw [List.dropLast_concat, trimEnd_concat (by decide)]
  · rfl

theorem feed_induct {motive : List Char → Prop} (last : ∀ line, '\n' ∉ line → motive line)
    (feed : ∀ line rest, '\n' ∉ line → motive rest → motive (line ++ '\n' :: rest))
    (cs : List Char) : motive cs := by
  induction h : cs.length using Nat.strongRecOn generalizing cs with
  | ind n ih =>
    by_cases mem : '\n' ∈ cs
    · obtain ⟨line, rest, rfl, noFeed⟩ := List.eq_append_cons_of_mem mem
      exact feed line rest noFeed (ih rest.length (by simp at h; omega) rest rfl)
    · exact last cs mem

theorem lines_feed (cs ds : List Char) :
    lines (cs ++ '\n' :: ds) = lines (cs ++ ['\n']) ++ lines ds := by
  induction cs using feed_induct with
  | last line noFeed => simp [lines_line noFeed, lines]
  | feed line rest noFeed ih => simp [lines_line noFeed, ih]

theorem length_lines_feed (cs : List Char) :
    (lines (cs ++ ['\n'])).length = cs.count '\n' + 1 := by
  induction cs using feed_induct with
  | last line noFeed => simp [lines_line noFeed, lines, List.count_eq_zero_of_not_mem noFeed]
  | feed line rest noFeed ih =>
    simp [lines_line noFeed, ih, List.count_eq_zero_of_not_mem noFeed]

/-- A text without a line feed at its end has the same lines with one, up to a carriage return. -/
theorem lines_feed_trimEnd (cs : List Char) :
    (lines (cs ++ ['\n'])).map trimEnd = (lines cs).map trimEnd ∨
      (lines (cs ++ ['\n'])).map trimEnd = (lines cs).map trimEnd ++ [[]] := by
  induction cs using feed_induct with
  | last line noFeed =>
    by_cases empty : line = []
    · right
      simp [empty, lines, trimEnd]
    · left
      simp [lines_line noFeed, lines_last empty noFeed, lines, trimEnd_endLine]
  | feed line rest noFeed ih => simpa [lines_line noFeed] using ih

/-! ## Blocks -/

namespace NumberedLine

def cut (line : NumberedLine) : NumberedLine := { line with text := trimEnd line.text }

def shift (lines : Nat) (line : NumberedLine) : NumberedLine :=
  { line with number := line.number + lines }

end NumberedLine

theorem numberFrom_cut (first : Nat) (ls : List (List Char)) :
    (numberFrom first ls).map NumberedLine.cut = numberFrom first (ls.map trimEnd) := by
  induction ls generalizing first with
  | nil => rfl
  | cons l ls ih => simp [numberFrom, NumberedLine.cut, ih]

theorem numberFrom_shift (first lines : Nat) (ls : List (List Char)) :
    (numberFrom first ls).map (NumberedLine.shift lines) = numberFrom (first + lines) ls := by
  induction ls generalizing first with
  | nil => rfl
  | cons l ls ih =>
    have next : first + 1 + lines = first + lines + 1 := by omega
    simp [numberFrom, NumberedLine.shift, ih, next]

theorem closeRun_map (f : NumberedLine → NumberedLine) (run : List NumberedLine)
    (later : List (List NumberedLine)) :
    closeRun (run.map f) (later.map (List.map f)) = (closeRun run later).map (List.map f) := by
  cases run <;> simp [closeRun]

theorem splitRun_map {f : NumberedLine → NumberedLine}
    (same : ∀ l, isBlankLine (f l).text = isBlankLine l.text) (ls : List NumberedLine) :
    splitRun (ls.map f) = ((splitRun ls).1.map f, (splitRun ls).2.map (List.map f)) := by
  induction ls with
  | nil => rfl
  | cons l ls ih =>
    rw [List.map_cons, splitRun, splitRun, ih, same]
    cases isBlankLine l.text with
    | false => rfl
    | true => simp [closeRun_map]

theorem blocksOf_map {f : NumberedLine → NumberedLine}
    (same : ∀ l, isBlankLine (f l).text = isBlankLine l.text) (ls : List NumberedLine) :
    blocksOf (ls.map f) = (blocksOf ls).map (List.map f) := by
  rw [blocksOf, splitRun_map same, closeRun_map]
  rfl

theorem blocksOf_cut (ls : List NumberedLine) :
    blocksOf (ls.map NumberedLine.cut) = (blocksOf ls).map (List.map NumberedLine.cut) :=
  blocksOf_map (fun l => isBlankLine_trimEnd l.text) ls

theorem blocksOf_shift (lines : Nat) (ls : List NumberedLine) :
    blocksOf (ls.map (NumberedLine.shift lines)) =
      (blocksOf ls).map (List.map (NumberedLine.shift lines)) := by
  apply blocksOf_map
  intro l
  rfl

theorem blocks_cut (cs : List Char) :
    (blocks cs).map (List.map NumberedLine.cut) =
      blocksOf (numberFrom 1 ((lines cs).map trimEnd)) := by
  rw [blocks_eq, ← blocksOf_cut, numberedLines, numberFrom_cut]

theorem blocks_feed_cut (cs : List Char) :
    blocksOf (numberFrom 1 ((lines (cs ++ ['\n'])).map trimEnd)) =
      (blocks cs).map (List.map NumberedLine.cut) := by
  rw [blocks_cut]
  rcases lines_feed_trimEnd cs with same | more
  · rw [same]
  · rw [more, numberFrom_append, numberFrom, blocksOf_append_blank _ rfl]
    exact List.append_nil _

theorem blocks_shift (k : Nat) (cs : List Char) :
    (blocks cs).map (List.map (NumberedLine.shift k)) = blocksOf (numberFrom (1 + k) (lines cs)) := by
  rw [blocks_eq, ← blocksOf_shift, numberedLines, numberFrom_shift]

theorem blocks_append (cs ds : List Char) :
    (blocks (cs ++ '\n' :: '\n' :: ds)).map (List.map NumberedLine.cut) =
      (blocks cs ++ (blocks ds).map (List.map (NumberedLine.shift (cs.count '\n' + 2)))).map
        (List.map NumberedLine.cut) := by
  have joint : lines (cs ++ '\n' :: '\n' :: ds) = lines (cs ++ ['\n']) ++ [] :: lines ds := by
    rw [lines_feed, lines]
  have first : 1 + (cs.count '\n' + 1) + 1 = 1 + (cs.count '\n' + 2) := by omega
  rw [blocks_cut, joint, List.map_append, List.map_cons, numberFrom_append, numberFrom,
    blocksOf_append_blank _ rfl, blocks_feed_cut, List.length_map, length_lines_feed, first,
    List.map_append, blocks_shift, ← blocksOf_cut, numberFrom_cut]

end Commission.Text
