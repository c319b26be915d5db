import Commission.Proofs.Rule.Assembly
import Commission.Proofs.Text.Paragraphs
import Mathlib.Data.List.Pairwise

/-!
The strict policy against the lenient one. Both read a block alike up to the first line that has no
place, which only the strict policy rejects, and such a line stands above the first marker.
Main statement: `strict_is_lenient_with_rejections`.
-/
namespace Commission

open Text (NumberedLine)

/-- The errors about lines that have no place. -/
def ParseError.isRejection : ParseError → Bool
  | outsideSection .. | duplicateHeader .. => true
  | _ => false

namespace Block

structure Stray (above : List NumberedLine) (line : NumberedLine) : Prop where
  outside : ∀ l ∈ above, l.opens? = none
  plain : line.opens? = none
  noHeader : line.header? = none

structure SecondHeader (above : List NumberedLine) (line : NumberedLine) : Prop where
  outside : ∀ l ∈ above, l.opens? = none
  plain : line.opens? = none
  header : line.header? ≠ none
  earlier : ∃ l ∈ above, l.header? ≠ none

structure Unreadable (above : List NumberedLine) (line : NumberedLine) : Prop where
  inside : openSection above = some .conditions
  plain : line.opens? = none
  failed : ∃ e, line.condition = .error e

inductive Rejected (above : List NumberedLine) (line : NumberedLine) : ParseError → Prop where
  | stray (stray : Stray above line) :
      Rejected above line (.outsideSection line.number line.stray.describe)
  | secondHeader (second : SecondHeader above line) {name : String} {priority : Int64}
      (header : line.header? = some (name, priority)) :
      Rejected above line (.duplicateHeader line.number name)

def Orderly (block : List NumberedLine) : Prop :=
  ∀ above line below, block = above ++ line :: below →
    ¬ Stray above line ∧ ¬ SecondHeader above line ∧ ¬ Unreadable above line

section Rejected
variable {above : List NumberedLine} {line : NumberedLine} {e : ParseError}

theorem Rejected.isRejection (rejected : Rejected above line e) : e.isRejection := by
  cases rejected <;> rfl

theorem Rejected.line?_eq (rejected : Rejected above line e) : e.line? = some line.number := by
  cases rejected <;> rfl

theorem Rejected.outside (rejected : Rejected above line e) :
    (∀ l ∈ above, l.opens? = none) ∧ line.opens? = none := by
  cases rejected with
  | stray stray => exact ⟨stray.outside, stray.plain⟩
  | secondHeader second _ => exact ⟨second.outside, second.plain⟩

end Rejected

theorem headers_eq_nil_iff {above : List NumberedLine} (outside : ∀ l ∈ above, l.opens? = none) :
    headers above = [] ↔ ∀ l ∈ above, l.header? = none := by
  rw [headers, linesIn_plain none outside, if_pos rfl, List.filterMap_eq_nil_iff]

/-! ## One line -/

section Step
variable {above : List NumberedLine} {line : NumberedLine} (cs : List Condition)

theorem step_of_stray (stray : Stray above line) :
    (draft above cs).step .strict line =
      .error (.outsideSection line.number line.stray.describe) :=
  Draft.step_stray .strict stray.plain ((openSection_eq_none_iff above).mpr stray.outside)
    stray.noHeader

theorem step_of_secondHeader (second : SecondHeader above line) {h : String × Int64}
    (header : line.header? = some h) :
    (draft above cs).step .strict line = .error (.duplicateHeader line.number h.1) := by
  have place : (draft above cs).inside = none := (openSection_eq_none_iff above).mpr second.outside
  have taken : (draft above cs).header.isSome := by
    rw [Option.isSome_iff_ne_none]
    intro none
    have empty := (headers_eq_nil_iff second.outside).mp (List.getLast?_eq_none_iff.mp none)
    obtain ⟨l, mem, earlier⟩ := second.earlier
    exact earlier (empty l mem)
  rw [Draft.step_header .strict second.plain place header, if_pos ⟨taken, rfl⟩]

theorem step_of_unreadable (unreadable : Unreadable above line) :
    ∃ e, (draft above cs).step .strict line = .error e := by
  obtain ⟨e, failed⟩ := unreadable.failed
  refine ⟨e, ?_⟩
  rw [Draft.step_condition .strict unreadable.plain unreadable.inside, failed]
  rfl

/-- The policies differ at lines without a place only. -/
theorem step_strict (above : List NumberedLine) (line : NumberedLine) :
    (draft above cs).step .strict line = (draft above cs).step .lenient line ∨
      ∃ e, Rejected above line e ∧ (draft above cs).step .strict line = .error e := by
  cases opened : line.opens? with
  | some s =>
    left
    rw [Draft.step_marker .strict opened, Draft.step_marker .lenient opened]
  | none =>
    cases place : openSection above with
    | some s =>
      left
      cases s with
      | conditions =>
        rw [Draft.step_condition .strict opened place, Draft.step_condition .lenient opened place]
      | calculation =>
        rw [Draft.step_calculation .strict opened place,
          Draft.step_calculation .lenient opened place]
      | notes => rw [Draft.step_note .strict opened place, Draft.step_note .lenient opened place]
    | none =>
      have outside := (openSection_eq_none_iff above).mp place
      cases header : line.header? with
      | none =>
        right
        have stray : Stray above line := ⟨outside, opened, header⟩
        exact ⟨_, .stray stray, step_of_stray cs stray⟩
      | some h =>
        by_cases first : ∀ l ∈ above, l.header? = none
        · left
          have untaken : (draft above cs).header = none := by
            rw [draft, (headers_eq_nil_iff outside).mpr first, List.getLast?_nil]
          rw [Draft.step_header .strict opened place header,
            Draft.step_header .lenient opened place header]
          simp [untaken]
        · right
          have second : SecondHeader above line :=
            ⟨outside, opened, by simp [header], by simpa using first⟩
          exact ⟨_, .secondHeader second header, step_of_secondHeader cs second header⟩

end Step

/-! ## One block -/

theorem foldlM_strict (block : List NumberedLine) :
    block.foldlM (Draft.step .strict) {} = block.foldlM (Draft.step .lenient) {} ∨
      ∃ above line below e cs, block = above ++ line :: below ∧
        above.foldlM (Draft.step .strict) {} = .ok (draft above cs) ∧ Rejected above line e ∧
        block.foldlM (Draft.step .strict) {} = .error e := by
  induction block using List.reverseRecOn with
  | nil => exact .inl rfl
  | append_singleton block line ih =>
    rcases ih with same | ⟨above, bad, below, e, cs, rfl, reached, rejected, failed⟩
    · have lenient := foldlM_lenient block
      rw [foldlM_concat, foldlM_concat, same]
      cases conditions : (linesIn (some .conditions) block).mapM NumberedLine.condition with
      | error e =>
        rw [conditions] at lenient
        left
        rw [lenient]
        rfl
      | ok cs =>
        rw [conditions] at lenient
        rcases step_strict cs block line with alike | ⟨e, rejected, failed⟩
        · left
          rw [lenient]
          exact alike
        · right
          refine ⟨block, line, [], e, cs, rfl, same.trans lenient, rejected, ?_⟩
          rw [lenient]
          exact failed
    · right
      refine ⟨above, bad, below ++ [line], e, cs, by simp, reached, rejected, ?_⟩
      exact foldlM_error failed [line]

theorem draft_of_strict {block : List NumberedLine} {d : Draft}
    (read : block.foldlM (Draft.step .strict) {} = .ok d) : ∃ cs, d = draft block cs := by
  rcases foldlM_strict block with same | ⟨-, -, -, e, -, -, -, -, failed⟩
  · rw [same, foldlM_lenient] at read
    obtain ⟨cs, -, rfl⟩ := map_eq_ok_iff.mp read
    exact ⟨cs, rfl⟩
  · rw [failed] at read
    contradiction

theorem orderly_of_strict {block : List NumberedLine} {d : Draft}
    (read : block.foldlM (Draft.step .strict) {} = .ok d) : Orderly block := by
  rintro above line below rfl
  rw [List.foldlM_append] at read
  obtain ⟨reached, start, rest⟩ := bind_eq_ok_iff.mp read
  obtain ⟨cs, rfl⟩ := draft_of_strict start
  rw [List.foldlM_cons] at rest
  obtain ⟨next, stepped, -⟩ := bind_eq_ok_iff.mp rest
  refine ⟨fun stray => ?_, fun second => ?_, fun unreadable => ?_⟩
  · rw [step_of_stray cs stray] at stepped
    contradiction
  · obtain ⟨h, header⟩ := Option.ne_none_iff_exists'.mp second.header
    rw [step_of_secondHeader cs second header] at stepped
    contradiction
  · obtain ⟨e, failed⟩ := step_of_unreadable cs unreadable
    rw [failed] at stepped
    contradiction

theorem ofBlock_strict (block : List NumberedLine) :
    Rule.ofBlock .strict block = Rule.ofBlock .lenient block ∨
      ∃ above line below e, block = above ++ line :: below ∧ Orderly above ∧
        Rejected above line e ∧ Rule.ofBlock .strict block = .error e := by
  rcases foldlM_strict block with
    same | ⟨above, line, below, e, cs, split, reached, rejected, failed⟩
  · left
    rw [Rule.ofBlock, Rule.ofBlock, same]
  · right
    refine ⟨above, line, below, e, split, orderly_of_strict reached, rejected, ?_⟩
    rw [Rule.ofBlock, failed]
    rfl

theorem lenient_accepts (block : List NumberedLine) :
    FailsWith (fun e => e.isRejection = false) (Rule.ofBlock .lenient block) := by
  rw [ofBlock_lenient, reading]
  apply failsWith_bind
  · intro e failed
    obtain ⟨-, line, -, -, -, unreadable⟩ := mapM_eq_error_iff.mp failed
    rw [NumberedLine.condition] at unreadable
    cases read : Reading.condition line.body with
    | ok c =>
      rw [read] at unreadable
      contradiction
    | error expected =>
      rw [read] at unreadable
      obtain rfl := Except.error.inj unreadable
      rfl
  · intro cs _
    split
    · exact failsWith_error rfl
    · exact failsWith_error rfl
    · exact failsWith_ok _

end Block

/-! ## All blocks of a text -/

open Block

theorem mapM_congr_of_ok {α β ε : Type} {f g : α → Except ε β} {xs : List α}
    (same : ∀ x ∈ xs, ∀ b, f x = .ok b → g x = .ok b) {bs : List β} (read : xs.mapM f = .ok bs) :
    xs.mapM g = .ok bs := by
  induction xs generalizing bs with
  | nil => exact read
  | cons x xs ih =>
    rw [List.mapM_cons] at read ⊢
    obtain ⟨b, cs, first, later, rfl⟩ := both_eq_ok_iff.mp read
    have rest := ih (fun y mem => same y (by simp [mem])) later
    rw [same x (by simp) b first, rest]
    rfl

theorem lenient_of_strict {block : List NumberedLine} {r : Rule}
    (read : Rule.ofBlock .strict block = .ok r) : Rule.ofBlock .lenient block = .ok r := by
  rcases ofBlock_strict block with same | ⟨-, -, -, e, -, -, -, failed⟩
  · rw [← same, read]
  · rw [failed] at read
    contradiction

theorem lenient_of_failure {block : List NumberedLine} {e : ParseError}
    (failed : Rule.ofBlock .strict block = .error e) (other : e.isRejection = false) :
    Rule.ofBlock .lenient block = .error e := by
  rcases ofBlock_strict block with same | ⟨_, _, _, e', _, _, rejected, failed'⟩
  · rw [← same, failed]
  · obtain rfl := Except.error.inj (failed.symm.trans failed')
    rw [rejected.isRejection] at other
    contradiction

theorem rejected_of_failure {block : List NumberedLine} {e : ParseError}
    (failed : Rule.ofBlock .strict block = .error e) (rejection : e.isRejection) :
    ∃ above line below, block = above ++ line :: below ∧ Orderly above ∧ Rejected above line e := by
  rcases ofBlock_strict block with
    same | ⟨above, line, below, e', split, orderly, rejected, failed'⟩
  · have lenient : e.isRejection = false := lenient_accepts block e (same.symm.trans failed)
    rw [rejection] at lenient
    contradiction
  · obtain rfl := Except.error.inj (failed.symm.trans failed')
    exact ⟨above, line, below, split, orderly, rejected⟩

theorem exists_mapM_ok {α β ε : Type} {f : α → Except ε β} {xs : List α}
    (each : ∀ x ∈ xs, ∃ b, f x = .ok b) : ∃ bs, xs.mapM f = .ok bs := by
  apply failure?_eq_none_iff.mp
  rw [failure?_mapM, List.findSome?_eq_none_iff]
  intro x mem
  exact failure?_eq_none_iff.mpr (each x mem)

theorem parseAll_lenient (text : String)
    (other : ∀ e, Rule.parseAll .strict text = .error e → e.isRejection = false) :
    Rule.parseAll .lenient text = Rule.parseAll .strict text := by
  cases read : Rule.parseAll .strict text with
  | ok rules => exact mapM_congr_of_ok (fun block _ r => lenient_of_strict) read
  | error e =>
    obtain ⟨before, bad, after, split, earlier, failed⟩ := mapM_eq_error_iff.mp read
    refine mapM_eq_error_iff.mpr ⟨before, bad, after, split, ?_, ?_⟩
    · intro block mem
      obtain ⟨r, first⟩ := earlier block mem
      exact ⟨r, lenient_of_strict first⟩
    · exact lenient_of_failure failed (other e read)

theorem parseAll_rejected {text : String} {e : ParseError}
    (failed : Rule.parseAll .strict text = .error e) (rejection : e.isRejection) :
    ∃ before above line below after,
      Text.blocks text.toList = before ++ (above ++ line :: below) :: after ∧
      (∃ rules, before.mapM (Rule.ofBlock .strict) = .ok rules ∧
        before.mapM (Rule.ofBlock .lenient) = .ok rules) ∧
      Orderly above ∧ Rejected above line e := by
  obtain ⟨before, bad, after, split, earlier, failed⟩ := mapM_eq_error_iff.mp failed
  obtain ⟨above, line, below, rfl, orderly, rejected⟩ := rejected_of_failure failed rejection
  obtain ⟨rules, read⟩ := exists_mapM_ok earlier
  exact ⟨before, above, line, below, after, split,
    ⟨rules, read, mapM_congr_of_ok (fun block _ r => lenient_of_strict) read⟩, orderly, rejected⟩

theorem block_of_number {cs : List Char} {block other : List NumberedLine}
    (mem : block ∈ Text.blocks cs) (mem' : other ∈ Text.blocks cs) {line line' : NumberedLine}
    (inside : line ∈ block) (inside' : line' ∈ other) (number : line.number = line'.number) :
    block = other := by
  have order := (List.pairwise_flatten.mp (Text.blocks_sorted cs)).2
  refine List.Pairwise.forall_of_forall_of_flip (R := fun a b => line ∈ a → line' ∈ b → a = b)
    (fun a _ _ _ => rfl) (order.imp ?_) (order.imp ?_) mem mem' inside inside'
  · intro a b before memx memy
    have := before line memx line' memy
    omega
  · intro a b before memx memy
    have := before line' memy line memx
    omega

theorem not_rejected_below_marker {text : String} {above below : List NumberedLine}
    {line marker : NumberedLine} (mem : above ++ line :: below ∈ Text.blocks text.toList)
    (higher : marker ∈ above) (opens : marker.opens? ≠ none) (quoted : String) :
    Rule.parseAll .strict text ≠ .error (.outsideSection line.number quoted) := by
  intro failed
  obtain ⟨before, above', bad, below', after, split, -, -, rejected⟩ :=
    parseAll_rejected failed rfl
  have number : line.number = bad.number := Option.some.inj rejected.line?_eq
  have mem' : above' ++ bad :: below' ∈ Text.blocks text.toList := by simp [split]
  have same := block_of_number mem mem' (by simp) (by simp) number
  -- In a block in order of numbers, a marker above the one line is above the other one too.
  have sorted := (List.pairwise_flatten.mp (Text.blocks_sorted text.toList)).1
  have earlier : marker.number < line.number :=
    (List.pairwise_append.mp (sorted _ mem)).2.2 marker higher line (by simp)
  have later := (List.pairwise_append.mp (sorted _ mem')).2.1
  have position : marker ∈ above' ++ bad :: below' := by
    rw [← same]
    simp [higher]
  rcases List.mem_append.mp position with high | low
  · exact opens (rejected.outside.1 marker high)
  · rcases List.mem_cons.mp low with rfl | low
    · omega
    · have := List.rel_of_pairwise_cons later low
      omega

/-- The strict policy reads a text as the lenient one does, or it rejects a line. That line stands
    above the first marker of its block, it is a stray line or a second header, no line of the block
    above it has no place or is unreadable, and the blocks before it are read alike. A line below a
    marker is not rejected. -/
theorem strict_is_lenient_with_rejections (text : String) :
    ((∀ e, Rule.parseAll .strict text = .error e → e.isRejection = false) →
      Rule.parseAll .lenient text = Rule.parseAll .strict text) ∧
    (∀ e, Rule.parseAll .strict text = .error e → e.isRejection →
      ∃ before above line below after,
        Text.blocks text.toList = before ++ (above ++ line :: below) :: after ∧
        (∃ rules, before.mapM (Rule.ofBlock .strict) = .ok rules ∧
          before.mapM (Rule.ofBlock .lenient) = .ok rules) ∧
        Orderly above ∧ Rejected above line e) ∧
    ∀ above marker line below, above ++ line :: below ∈ Text.blocks text.toList →
      marker ∈ above → marker.opens? ≠ none →
      ∀ quoted, Rule.parseAll .strict text ≠ .error (.outsideSection line.number quoted) := by
  refine ⟨parseAll_lenient text, fun e failed rejection => parseAll_rejected failed rejection, ?_⟩
  intro above marker line below mem higher opens quoted
  exact not_rejected_below_marker mem higher opens quoted

/-- The line above `Then` in the second block has no place. -/
def strayText : String := "Quota (1)\nThen\n    1\n\nBonus (2)\n    margin > 0\nThen\n    2"

theorem strict_is_lenient_with_rejections_stray :
    (∀ e, Rule.parseAll .strict "Quota (1)\nThen\n    1" = .error e → e.isRejection = false) ∧
    Rule.parseAll .lenient "Quota (1)\nThen\n    1" =
      Rule.parseAll .strict "Quota (1)\nThen\n    1" ∧
    Rule.parseAll .strict strayText = .error (.outsideSection 6 "margin > 0") ∧
    (∃ before above line below after,
      Text.blocks strayText.toList = before ++ (above ++ line :: below) :: after ∧
      (∃ rules, before.mapM (Rule.ofBlock .strict) = .ok rules ∧
        before.mapM (Rule.ofBlock .lenient) = .ok rules) ∧
      Orderly above ∧ Rejected above line (.outsideSection 6 "margin > 0")) ∧
    ([⟨1, "Quota (1)".toList⟩, ⟨2, "Then".toList⟩] ++ ⟨3, "    1".toList⟩ :: [] ∈
      Text.blocks strayText.toList) ∧
    ∀ quoted, Rule.parseAll .strict strayText ≠ .error (.outsideSection 3 quoted) := by
  have accepted : ∀ e, Rule.parseAll .strict "Quota (1)\nThen\n    1" = .error e →
      e.isRejection = false := by
    have read : Rule.parseAll .strict "Quota (1)\nThen\n    1" =
        .ok [⟨"Quota", 1, [], "1", none⟩] := by
      apply toOption_eq_some_iff.mp
      decide +kernel
    intro e failed
    rw [read] at failed
    contradiction
  have failed : Rule.parseAll .strict strayText = .error (.outsideSection 6 "margin > 0") := by
    apply failure?_eq_some_iff.mp
    decide +kernel
  have block : [⟨1, "Quota (1)".toList⟩, ⟨2, "Then".toList⟩] ++ ⟨3, "    1".toList⟩ :: [] ∈
      Text.blocks strayText.toList := by
    decide +kernel
  exact ⟨accepted, (strict_is_lenient_with_rejections _).1 accepted, failed,
    (strict_is_lenient_with_rejections strayText).2.1 _ failed rfl, block,
    (strict_is_lenient_with_rejections strayText).2.2 _ ⟨2, "Then".toList⟩ _ _ block (by simp)
      (by decide)⟩

end Commission
