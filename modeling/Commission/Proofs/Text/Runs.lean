import Commission.Proofs.Text.Paragraphs
import Mathlib.Data.List.Chain

/-!
The blocks of a text are its runs of lines that are not blank. Joined they are these lines, each with
its position in the text; inside a block the positions are consecutive, and between two blocks stands
a blank line. Main statement: `blocks_runs`.
-/
namespace Commission.Text

/-! ## Positions -/

def lineAt? (cs : List Char) : Nat → Option (List Char)
  | 0 => none
  | n + 1 => (lines cs)[n]?

theorem numberFrom_eq_mapIdx (first : Nat) (ls : List (List Char)) :
    numberFrom first ls = ls.mapIdx fun i line => ⟨first + i, line⟩ := by
  induction ls generalizing first with
  | nil => rfl
  | cons l ls ih =>
    rw [numberFrom, ih, List.mapIdx_cons]
    simp only [Nat.add_zero, Nat.add_assoc, Nat.add_comm 1]

theorem numberedLines_eq (cs : List Char) :
    numberedLines cs = (lines cs).mapIdx fun i line => ⟨i + 1, line⟩ := by
  simp only [numberedLines, numberFrom_eq_mapIdx, Nat.add_comm 1]

theorem lineAt?_of_mem {cs : List Char} {line : NumberedLine} (mem : line ∈ numberedLines cs) :
    lineAt? cs line.number = some line.text := by
  rw [numberedLines_eq] at mem
  obtain ⟨i, short, rfl⟩ := List.mem_mapIdx.mp mem
  exact List.getElem?_eq_getElem short

def Next (a b : NumberedLine) : Prop := b.number = a.number + 1

theorem numberFrom_chain (first : Nat) (ls : List (List Char)) :
    (numberFrom first ls).IsChain Next := by
  induction ls generalizing first with
  | nil => exact .nil
  | cons l ls ih =>
    cases ls with
    | nil => exact .singleton _
    | cons m ls => exact .cons_cons rfl (ih (first + 1))

/-! ## Runs -/

def Apart (ls : List NumberedLine) (a b : List NumberedLine) : Prop :=
  ∃ blank ∈ ls, isBlankLine blank.text ∧
    (∀ line ∈ a, line.number < blank.number) ∧ ∀ line ∈ b, blank.number < line.number

/-- Lines up to the first blank one, that line, and the lines below it. -/
theorem cut_induct {motive : List NumberedLine → Prop}
    (last : ∀ run, (∀ l ∈ run, isBlankLine l.text = false) → motive run)
    (cut : ∀ run blank more, (∀ l ∈ run, isBlankLine l.text = false) → isBlankLine blank.text →
      motive more → motive (run ++ blank :: more)) (ls : List NumberedLine) : motive ls := by
  suffices further : ∀ run, (∀ l ∈ run, isBlankLine l.text = false) → motive (run ++ ls) from
    further [] (by simp)
  -- The run is open: what stands in it is known not to be blank.
  induction ls with
  | nil =>
    intro run solid
    simpa using last run solid
  | cons line ls ih =>
    intro run solid
    cases blank : isBlankLine line.text with
    | true => exact cut run line ls solid blank (ih [] (by simp))
    | false =>
      have longer : ∀ l ∈ run ++ [line], isBlankLine l.text = false := by
        intro l mem
        rcases List.mem_append.mp mem with mem | mem
        · exact solid l mem
        · rwa [List.mem_singleton.mp mem]
      simpa using ih (run ++ [line]) longer

theorem blocksOf_solid {run : List NumberedLine} (solid : ∀ l ∈ run, isBlankLine l.text = false) :
    blocksOf run = closeRun run [] := by
  rw [blocksOf, splitRun_solid solid]

theorem blocksOf_run_blank {run more : List NumberedLine} {blank : NumberedLine}
    (solid : ∀ l ∈ run, isBlankLine l.text = false) (isBlank : isBlankLine blank.text) :
    blocksOf (run ++ blank :: more) = closeRun run (blocksOf more) := by
  rw [blocksOf_append_blank run isBlank, blocksOf_solid solid, ← closeRun_append, List.nil_append]

theorem mem_closeRun {run block : List NumberedLine} {later : List (List NumberedLine)} :
    block ∈ closeRun run later ↔ (block = run ∧ run ≠ []) ∨ block ∈ later := by
  unfold closeRun
  split
  · next empty => simp [List.isEmpty_iff.mp empty]
  · next filled => simp [show run ≠ [] by simpa using filled]

theorem infix_of_mem_blocksOf {ls block : List NumberedLine} (mem : block ∈ blocksOf ls) :
    block ≠ [] ∧ block <:+: ls := by
  induction ls using cut_induct with
  | last run solid =>
    rw [blocksOf_solid solid] at mem
    rcases mem_closeRun.mp mem with ⟨rfl, filled⟩ | mem
    · exact ⟨filled, List.infix_refl block⟩
    · simp at mem
  | cut run blank more solid isBlank ih =>
    rw [blocksOf_run_blank solid isBlank] at mem
    rcases mem_closeRun.mp mem with ⟨rfl, filled⟩ | mem
    · exact ⟨filled, (List.prefix_append _ _).isInfix⟩
    · obtain ⟨filled, inside⟩ := ih mem
      exact ⟨filled, inside.trans ((List.suffix_cons _ _).trans (List.suffix_append _ _)).isInfix⟩

theorem Apart.mono {ls ms : List NumberedLine} (subset : ls ⊆ ms) {a b : List NumberedLine}
    (apart : Apart ls a b) : Apart ms a b := by
  obtain ⟨blank, mem, rest⟩ := apart
  exact ⟨blank, subset mem, rest⟩

theorem apart_blocksOf {ls : List NumberedLine}
    (sorted : ls.Pairwise fun a b => a.number < b.number) : (blocksOf ls).IsChain (Apart ls) := by
  induction ls using cut_induct with
  | last run solid =>
    rw [blocksOf_solid solid, closeRun]
    split
    · exact .nil
    · exact .singleton run
  | cut run blank more solid isBlank ih =>
    have subset : more ⊆ run ++ blank :: more := by simp
    obtain ⟨-, below, above⟩ := List.pairwise_append.mp sorted
    have later := (ih (List.pairwise_cons.mp below).2).imp fun a b => Apart.mono subset
    rw [blocksOf_run_blank solid isBlank, closeRun]
    split
    · exact later
    · refine List.isChain_cons.mpr ⟨?_, later⟩
      intro block mem
      refine ⟨blank, by simp, isBlank, ?_, ?_⟩
      · exact fun line mem => above line mem blank (by simp)
      · intro line inside
        have block' := (infix_of_mem_blocksOf (List.mem_of_mem_head? mem)).2
        exact (List.pairwise_cons.mp below).1 line (block'.subset inside)

structure Runs (ls : List NumberedLine) (bs : List (List NumberedLine)) : Prop where
  joined : bs.flatten = ls.filter fun l => !isBlankLine l.text
  filled : ∀ b ∈ bs, b ≠ []
  consecutive : ∀ b ∈ bs, b.IsChain Next
  apart : bs.IsChain (Apart ls)

theorem blocks_runs (cs : List Char) : Runs (numberedLines cs) (blocks cs) where
  joined := blocks_flatten cs
  filled _ mem := (infix_of_mem_blocksOf mem).1
  consecutive block mem := by
    obtain ⟨above, below, split⟩ := (infix_of_mem_blocksOf mem).2
    have chain : (above ++ block ++ below).IsChain Next := by
      rw [split]
      exact numberFrom_chain 1 (lines cs)
    exact chain.left_of_append.right_of_append
  apart := apart_blocksOf (numberFrom_sorted 1 (lines cs))

end Commission.Text
