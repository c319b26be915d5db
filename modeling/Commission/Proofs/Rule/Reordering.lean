import Commission.Proofs.Rule.Assembly
import Commission.Proofs.Rule.Renumbering

/-!
Blocks as headers and sections. Sections may change places as long as those of one kind keep their
order. Main statement: `ofBlock_eq_reading`.
-/
namespace Commission

open Text (NumberedLine)

namespace Block

structure Part where
  opened : Section
  marker : NumberedLine
  lines : List NumberedLine
  opens : marker.opens? = some opened
  plain : ∀ line ∈ lines, line.opens? = none

def Part.all (part : Part) : List NumberedLine := part.marker :: part.lines

def assemble (top : List NumberedLine) (parts : List Part) : List NumberedLine :=
  top ++ parts.flatMap Part.all

theorem assemble_concat (top : List NumberedLine) (parts : List Part) (part : Part) :
    assemble top (parts ++ [part]) = assemble top parts ++ part.all := by
  simp [assemble]

theorem linesIn_append_part (place : Option Section) (block : List NumberedLine) (part : Part) :
    linesIn place (block ++ part.all) =
      linesIn place block ++ if some part.opened = place then part.lines else [] := by
  have split : block ++ part.all = (block ++ [part.marker]) ++ part.lines := by simp [Part.all]
  rw [split, linesIn_append_plain place _ part.plain, linesIn_concat_marker place block part.opens,
    openSection_concat, part.opens]
  rfl

section Assemble
variable {top : List NumberedLine} (plain : ∀ line ∈ top, line.opens? = none)
include plain

theorem linesIn_assemble (place : Option Section) (parts : List Part) :
    linesIn place (assemble top parts) =
      (if place = none then top else []) ++
        (parts.filter fun part => some part.opened = place).flatMap Part.lines := by
  induction parts using List.reverseRecOn with
  | nil =>
    rw [assemble, List.flatMap_nil, List.append_nil, linesIn_plain place plain]
    simp
  | append_singleton parts part ih =>
    rw [assemble_concat, linesIn_append_part, ih, List.filter_append, List.flatMap_append,
      List.append_assoc]
    by_cases here : some part.opened = place <;> simp [here]

theorem linesIn_reorder {parts parts' : List Part}
    (order : ∀ s, parts.filter (·.opened = s) = parts'.filter (·.opened = s))
    (place : Option Section) :
    linesIn place (assemble top parts) = linesIn place (assemble top parts') := by
  rw [linesIn_assemble plain, linesIn_assemble plain]
  cases place with
  | none =>
    have nowhere : ∀ ps : List Part, (ps.filter fun part => some part.opened = none) = [] := by
      intro ps
      exact List.filter_eq_nil_iff.mpr (by simp)
    rw [nowhere, nowhere]
  | some s => simp [order s]

end Assemble

theorem reading_congr {block other : List NumberedLine}
    (same : ∀ place, linesIn place block = linesIn place other) :
    reading block = reading other := by
  have header : headers block = headers other := by rw [headers, headers, same]
  have calculation : calculation? block = calculation? other := by
    rw [calculation?, calculation?, same]
  have noted : notes block = notes other := by rw [notes, notes, same]
  rw [reading, reading, same, header, calculation, noted]

theorem exists_assemble (block : List NumberedLine) :
    ∃ top parts, (∀ line ∈ top, line.opens? = none) ∧ block = assemble top parts := by
  induction block using List.reverseRecOn with
  | nil => exact ⟨[], [], by simp, rfl⟩
  | append_singleton block line ih =>
    obtain ⟨top, parts, plain, rfl⟩ := ih
    cases opened : line.opens? with
    | some s =>
      refine ⟨top, parts ++ [⟨s, line, [], opened, by simp⟩], plain, ?_⟩
      rw [assemble_concat]
      rfl
    | none =>
      -- The line belongs to the last section, or to the top if there is no section yet.
      cases parts using List.reverseRecOn with
      | nil =>
        refine ⟨top ++ [line], [], ?_, by simp [assemble]⟩
        intro l mem
        rcases List.mem_append.mp mem with mem | mem
        · exact plain l mem
        · obtain rfl := List.mem_singleton.mp mem
          exact opened
      | append_singleton parts part =>
        have longer : ∀ l ∈ part.lines ++ [line], l.opens? = none := by
          intro l mem
          rcases List.mem_append.mp mem with mem | mem
          · exact part.plain l mem
          · obtain rfl := List.mem_singleton.mp mem
            exact opened
        refine ⟨top, parts ++ [{ part with lines := part.lines ++ [line], plain := longer }],
          plain, ?_⟩
        rw [assemble_concat, assemble_concat]
        simp [Part.all]

/-- A block gives what its sections say. Every block is made up of lines above its first marker and
    of sections, and sections that change places make no difference as long as those of one kind
    keep their order; counting the lines anew shows in the line of an error only. -/
theorem ofBlock_eq_reading :
    (∀ block, Rule.ofBlock .lenient block = reading block) ∧
    (∀ block, ∃ top parts, (∀ line ∈ top, line.opens? = none) ∧ block = assemble top parts) ∧
    (∀ top parts parts', (∀ line ∈ top, line.opens? = none) →
      (∀ s, parts.filter (·.opened = s) = parts'.filter (·.opened = s)) →
      Rule.ofBlock .lenient (assemble top parts) = Rule.ofBlock .lenient (assemble top parts')) ∧
    ∀ block other, block.map NumberedLine.text = other.map NumberedLine.text →
      (Rule.ofBlock .lenient block).mapError ParseError.unnumbered =
        (Rule.ofBlock .lenient other).mapError ParseError.unnumbered := by
  refine ⟨ofBlock_lenient, exists_assemble, ?_, ?_⟩
  · intro top parts parts' plain order
    rw [ofBlock_lenient, ofBlock_lenient]
    exact reading_congr (linesIn_reorder plain order)
  · intro block other texts
    exact ofBlock_texts .lenient texts

def bonusTop : List NumberedLine := [⟨1, "Bonus (1)".toList⟩, ⟨2, "Late bonus (2)".toList⟩]

def quotaPart : Part :=
  ⟨.conditions, ⟨3, "When".toList⟩, [⟨4, "    quota > 0".toList⟩], by decide, by decide⟩

def amountPart : Part :=
  ⟨.calculation, ⟨5, "Then".toList⟩, [⟨6, "max (2)".toList⟩, ⟨7, "    bonus".toList⟩], by decide,
    by decide⟩

def marginPart : Part :=
  ⟨.conditions, ⟨8, "When".toList⟩, [⟨9, "    margin >= 1".toList⟩], by decide, by decide⟩

theorem ofBlock_eq_reading_bonus :
    (∀ line ∈ bonusTop, line.opens? = none) ∧
    (∀ s, [quotaPart, amountPart, marginPart].filter (·.opened = s) =
      [amountPart, quotaPart, marginPart].filter (·.opened = s)) ∧
    Rule.ofBlock .lenient (assemble bonusTop [quotaPart, amountPart, marginPart]) =
      Rule.ofBlock .lenient (assemble bonusTop [amountPart, quotaPart, marginPart]) ∧
    reading (assemble bonusTop [quotaPart, amountPart, marginPart]) =
      .ok ⟨"Late bonus", 2, [⟨"quota", .gt, .scalar (.int 0)⟩, ⟨"margin", .ge, .scalar (.int 1)⟩],
        "bonus", none⟩ ∧
    (Rule.ofBlock .lenient [⟨4, "Bonus".toList⟩]).mapError ParseError.unnumbered =
      (Rule.ofBlock .lenient [⟨1, "Bonus".toList⟩]).mapError ParseError.unnumbered := by
  have plain : ∀ line ∈ bonusTop, line.opens? = none := by decide
  have order : ∀ s, [quotaPart, amountPart, marginPart].filter (·.opened = s) =
      [amountPart, quotaPart, marginPart].filter (·.opened = s) := by
    intro s
    cases s <;> rfl
  refine ⟨plain, order, ofBlock_eq_reading.2.2.1 bonusTop _ _ plain order, ?_,
    ofBlock_eq_reading.2.2.2 _ _ rfl⟩
  apply toOption_eq_some_iff.mp
  decide +kernel

end Block

end Commission
