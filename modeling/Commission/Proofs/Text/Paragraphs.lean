import Commission.Proofs.Text.Scanning
import Commission.Text.Lines

/-!
Lines that were joined are the lines of the joined text, and paragraphs with an empty line between
them are its blocks.
-/
namespace Commission.Text

structure Unbroken (line : List Char) : Prop where
  noFeed : '\n' ∉ line
  noReturn : line.getLast? ≠ some '\r'

theorem unbroken_of_tight {line : List Char} (noFeed : '\n' ∉ line) (tight : Tight line) :
    Unbroken line := by
  refine ⟨noFeed, fun last => ?_⟩
  have := tight.2 '\r' last
  contradiction

/-- The line feed of a line takes a carriage return along. -/
def endLine (line : List Char) : List Char :=
  if line.getLast? = some '\r' then line.dropLast else line

theorem lines_line {line : List Char} (noFeed : '\n' ∉ line) (rest : List Char) :
    lines (line ++ '\n' :: rest) = endLine line :: lines rest := by
  induction line with
  | nil => simp [lines, endLine]
  | cons c cs ih =>
    have first : c ≠ '\n' := by
      rintro rfl
      simp at noFeed
    have later := ih fun mem => noFeed (by simp [mem])
    cases cs with
    | nil =>
      by_cases return' : c = '\r'
      · simp [return', lines, endLine]
      · simp [lines, endLine, return']
    | cons d ds =>
      rw [List.cons_append, lines, later]
      · simp only [endLine, List.getLast?_cons_cons]
        split <;> simp
      · exact first
      · rintro tail rfl head
        obtain rfl : d = '\n' := by simpa using congrArg List.head? head
        simp at noFeed

theorem lines_append {line : List Char} (unbroken : Unbroken line) (rest : List Char) :
    lines (line ++ '\n' :: rest) = line :: lines rest := by
  have whole : endLine line = line := if_neg unbroken.noReturn
  rw [lines_line unbroken.noFeed, whole]

theorem lines_last {line : List Char} (filled : line ≠ []) (noFeed : '\n' ∉ line) :
    lines line = [line] := by
  induction line with
  | nil => contradiction
  | cons c cs ih =>
    have first : c ≠ '\n' := by
      rintro rfl
      simp at noFeed
    cases cs with
    | nil => simp [lines]
    | cons d ds =>
      have later := ih (by simp) fun mem => noFeed (by simp [mem])
      rw [lines, later]
      · exact first
      · rintro tail rfl head
        obtain rfl : d = '\n' := by simpa using congrArg List.head? head
        simp at noFeed

theorem lines_join {ls : List (List Char)} (filled : ls ≠ []) (unbroken : ∀ l ∈ ls, Unbroken l)
    (rest : List Char) :
    lines (['\n'].intercalate ls ++ '\n' :: rest) = ls ++ lines rest := by
  induction ls with
  | nil => contradiction
  | cons l ls ih =>
    have first := unbroken l (by simp)
    cases ls with
    | nil => simp [lines_append first]
    | cons m ls =>
      have later := ih (by simp) fun k mem => unbroken k (by simp [mem])
      rw [List.intercalate_cons_cons, List.append_assoc, List.append_assoc, List.singleton_append,
        lines_append first, later]
      rfl

theorem lines_joined {ls : List (List Char)} (filled : ∀ l ∈ ls, l ≠ [])
    (unbroken : ∀ l ∈ ls, Unbroken l) : lines (['\n'].intercalate ls) = ls := by
  induction ls with
  | nil => rfl
  | cons l ls ih =>
    cases ls with
    | nil =>
      rw [List.intercalate_singleton]
      exact lines_last (filled l (by simp)) (unbroken l (by simp)).noFeed
    | cons m ls =>
      have later := ih (fun k mem => filled k (by simp [mem]))
        fun k mem => unbroken k (by simp [mem])
      rw [List.intercalate_cons_cons, List.append_assoc, List.singleton_append,
        lines_append (unbroken l (by simp)), later]

theorem lines_noFeed (cs : List Char) : ∀ line ∈ lines cs, '\n' ∉ line := by
  fun_induction lines cs with
  | case1 => simp
  | case2 cs ih => simpa using ih
  | case3 cs ih => simpa using ih
  | case4 c cs notFeed notReturn empty ih => simpa using Ne.symm notFeed
  | case5 c cs notFeed notReturn first rest split ih =>
    rw [split] at ih
    intro line mem
    rcases List.mem_cons.mp mem with rfl | mem
    · simp [Ne.symm notFeed, ih first (by simp)]
    · exact ih line (by simp [mem])

/-! ## Blocks -/

def blocksOf (ls : List NumberedLine) : List (List NumberedLine) :=
  closeRun (splitRun ls).1 (splitRun ls).2

theorem blocks_eq (cs : List Char) : blocks cs = blocksOf (numberedLines cs) := rfl

theorem numberFrom_append (first : Nat) (ls ms : List (List Char)) :
    numberFrom first (ls ++ ms) = numberFrom first ls ++ numberFrom (first + ls.length) ms := by
  induction ls generalizing first with
  | nil => rfl
  | cons l ls ih =>
    have shift : first + 1 + ls.length = first + (ls.length + 1) := by omega
    simp only [List.cons_append, numberFrom, ih, List.length_cons, shift]

theorem numberFrom_texts (first : Nat) (ls : List (List Char)) :
    (numberFrom first ls).map NumberedLine.text = ls := by
  induction ls generalizing first with
  | nil => rfl
  | cons l ls ih => simp [numberFrom, ih]

theorem closeRun_append (run : List NumberedLine) (later more : List (List NumberedLine)) :
    closeRun run (later ++ more) = closeRun run later ++ more := by
  cases run <;> simp [closeRun]

theorem splitRun_append_blank (ls : List NumberedLine) {line : NumberedLine}
    (blank : isBlankLine line.text) (more : List NumberedLine) :
    splitRun (ls ++ line :: more) = ((splitRun ls).1, (splitRun ls).2 ++ blocksOf more) := by
  induction ls with
  | nil => simp [splitRun, blank, blocksOf]
  | cons l ls ih =>
    rw [List.cons_append, splitRun, splitRun, ih]
    cases isBlankLine l.text with
    | false => rfl
    | true => simp [closeRun_append]

theorem blocksOf_append_blank (ls : List NumberedLine) {line : NumberedLine}
    (blank : isBlankLine line.text) (more : List NumberedLine) :
    blocksOf (ls ++ line :: more) = blocksOf ls ++ blocksOf more := by
  rw [blocksOf, splitRun_append_blank ls blank, closeRun_append]
  rfl

theorem splitRun_solid {run : List NumberedLine} (solid : ∀ l ∈ run, isBlankLine l.text = false) :
    splitRun run = (run, []) := by
  induction run with
  | nil => rfl
  | cons l run ih =>
    have later := ih fun k mem => solid k (by simp [mem])
    simp [splitRun, later, solid l (by simp)]

theorem blocksOf_run {run : List NumberedLine} (filled : run ≠ [])
    (solid : ∀ l ∈ run, isBlankLine l.text = false) : blocksOf run = [run] := by
  simp [blocksOf, splitRun_solid solid, closeRun, filled]

theorem blocksOf_paragraph {run : List NumberedLine} (filled : run ≠ [])
    (solid : ∀ l ∈ run, isBlankLine l.text = false) (number : Nat) (more : List NumberedLine) :
    blocksOf (run ++ ⟨number, []⟩ :: more) = run :: blocksOf more := by
  rw [blocksOf_append_blank run rfl, blocksOf_run filled solid]
  rfl

structure Paragraph (ls : List (List Char)) : Prop where
  filled : ls ≠ []
  solid : ∀ l ∈ ls, isBlankLine l = false
  unbroken : ∀ l ∈ ls, Unbroken l

theorem solid_numberFrom {ls : List (List Char)} (solid : ∀ l ∈ ls, isBlankLine l = false)
    (first : Nat) : ∀ l ∈ numberFrom first ls, isBlankLine l.text = false := by
  intro l mem
  apply solid
  rw [← numberFrom_texts first ls]
  exact List.mem_map_of_mem mem

theorem blocksOf_texts {ps : List (List (List Char))} (paragraphs : ∀ p ∈ ps, Paragraph p)
    (first : Nat) :
    (blocksOf (numberFrom first ([[]].intercalate ps))).map (List.map NumberedLine.text) = ps := by
  induction ps generalizing first with
  | nil => rfl
  | cons p ps ih =>
    have head := paragraphs p (by simp)
    have filled : numberFrom first p ≠ [] := by
      intro empty
      have texts := numberFrom_texts first p
      rw [empty] at texts
      exact head.filled texts.symm
    have solid := solid_numberFrom head.solid first
    cases ps with
    | nil =>
      rw [List.intercalate_singleton, blocksOf_run filled solid]
      simp [numberFrom_texts]
    | cons q ps =>
      rw [List.intercalate_cons_cons, List.append_assoc, List.singleton_append, numberFrom_append,
        numberFrom, blocksOf_paragraph filled solid, List.map_cons, numberFrom_texts,
        ih fun r mem => paragraphs r (by simp [mem])]

theorem lines_paragraphs {ps : List (List (List Char))} (paragraphs : ∀ p ∈ ps, Paragraph p) :
    lines (['\n', '\n'].intercalate (ps.map (['\n'].intercalate ·))) = [[]].intercalate ps := by
  induction ps with
  | nil => rfl
  | cons p ps ih =>
    have head := paragraphs p (by simp)
    cases ps with
    | nil =>
      rw [List.map_singleton, List.intercalate_singleton, List.intercalate_singleton]
      refine lines_joined (fun l mem empty => ?_) head.unbroken
      have := head.solid l mem
      simp [empty, isBlankLine] at this
    | cons q ps =>
      have later := ih fun r mem => paragraphs r (by simp [mem])
      rw [List.map_cons] at later
      rw [List.map_cons, List.map_cons, List.intercalate_cons_cons, List.append_assoc,
        List.cons_append, List.singleton_append, lines_join head.filled head.unbroken, lines, later,
        List.intercalate_cons_cons, List.append_assoc, List.singleton_append]

theorem blocks_paragraphs {ps : List (List (List Char))} (paragraphs : ∀ p ∈ ps, Paragraph p) :
    (blocks (['\n', '\n'].intercalate (ps.map (['\n'].intercalate ·)))).map
      (List.map NumberedLine.text) = ps := by
  rw [blocks_eq, numberedLines, lines_paragraphs paragraphs]
  exact blocksOf_texts paragraphs 1

theorem le_of_mem_numberFrom {first : Nat} {ls : List (List Char)} {line : NumberedLine}
    (mem : line ∈ numberFrom first ls) : first ≤ line.number := by
  induction ls generalizing first with
  | nil => simp [numberFrom] at mem
  | cons l ls ih =>
    rcases List.mem_cons.mp mem with rfl | mem
    · exact Nat.le_refl first
    · have := ih mem
      omega

theorem numberFrom_sorted (first : Nat) (ls : List (List Char)) :
    (numberFrom first ls).Pairwise fun a b => a.number < b.number := by
  induction ls generalizing first with
  | nil => exact .nil
  | cons l ls ih =>
    refine .cons ?_ (ih (first + 1))
    intro line mem
    exact le_of_mem_numberFrom mem

theorem blocks_sorted (cs : List Char) :
    (blocks cs).flatten.Pairwise fun a b => a.number < b.number := by
  rw [blocks_flatten]
  exact (numberFrom_sorted 1 (lines cs)).filter _

theorem numbered_of_mem_blocks {cs : List Char} {block : List NumberedLine}
    (mem : block ∈ blocks cs) {line : NumberedLine} (inside : line ∈ block) :
    line ∈ numberedLines cs ∧ isBlankLine line.text = false := by
  have all : line ∈ (blocks cs).flatten := List.mem_flatten_of_mem mem inside
  rw [blocks_flatten, List.mem_filter] at all
  exact ⟨all.1, by simpa using all.2⟩

theorem line_of_mem_blocks {cs : List Char} {block : List NumberedLine} (mem : block ∈ blocks cs)
    {line : NumberedLine} (inside : line ∈ block) :
    line.text ∈ lines cs ∧ isBlankLine line.text = false := by
  obtain ⟨numbered, solid⟩ := numbered_of_mem_blocks mem inside
  refine ⟨?_, solid⟩
  rw [← numberFrom_texts 1 (lines cs)]
  exact List.mem_map_of_mem numbered

end Commission.Text
