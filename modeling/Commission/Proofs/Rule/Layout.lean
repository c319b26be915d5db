import Commission.Proofs.Rule.Concatenation
import Commission.Proofs.Rule.Strictness
import Mathlib.Data.List.Forall2
import Mathlib.Data.List.Nodup

/-!
Which blanks of a text matter. A line counts by its number and its trimmed text; only above the
first marker of a block it also counts whether the line is indented, because a header is not. So
line breaks, blanks at the ends of lines, and the indentation of markers and of what stands below
them can be changed at will. Main statement: `parseAll_of_layout`.
-/
namespace Commission

open Text (NumberedLine)

/-! ## Lines -/

namespace Text

def Indented (line : List Char) : Prop := [' ', ' ', ' ', ' '] <+: line

instance (line : List Char) : Decidable (Indented line) :=
  inferInstanceAs (Decidable ([' ', ' ', ' ', ' '] <+: line))

def withReturns (cs : List Char) : List Char :=
  cs.flatMap fun c => if c = '\n' then ['\r', '\n'] else [c]

def NumberedLine.bare (line : NumberedLine) : NumberedLine := { line with text := trim line.text }

theorem isBlankLine_trim (cs : List Char) : isBlankLine (trim cs) = isBlankLine cs := by
  obtain ⟨before, after, split, blankBefore, blankAfter⟩ := trim_split cs
  have front : before.all isBlank = true := List.all_eq_true.mpr blankBefore
  have back : after.all isBlank = true := List.all_eq_true.mpr blankAfter
  conv => rhs; rw [split]
  simp [isBlankLine, front, back]

theorem numberFrom_bare (first : Nat) (ls : List (List Char)) :
    (numberFrom first ls).map NumberedLine.bare = numberFrom first (ls.map trim) := by
  induction ls generalizing first with
  | nil => rfl
  | cons l ls ih => simp [numberFrom, NumberedLine.bare, ih]

theorem blocks_bare (cs : List Char) :
    (blocks cs).map (List.map NumberedLine.bare) =
      blocksOf (numberFrom 1 ((lines cs).map trim)) := by
  have alike : ∀ l : NumberedLine, isBlankLine l.bare.text = isBlankLine l.text :=
    fun l => isBlankLine_trim l.text
  rw [blocks_eq, ← blocksOf_map alike, numberedLines, numberFrom_bare]

theorem withReturns_line {line : List Char} (noFeed : '\n' ∉ line) : withReturns line = line := by
  induction line with
  | nil => rfl
  | cons c cs ih =>
    have other : c ≠ '\n' := by
      rintro rfl
      simp at noFeed
    have later := ih fun mem => noFeed (by simp [mem])
    rw [withReturns] at later ⊢
    rw [List.flatMap_cons, later, if_neg other]
    rfl

theorem withReturns_feed {line : List Char} (noFeed : '\n' ∉ line) (rest : List Char) :
    withReturns (line ++ '\n' :: rest) = (line ++ ['\r']) ++ '\n' :: withReturns rest := by
  have first := withReturns_line noFeed
  rw [withReturns] at first
  simp [withReturns, first]

theorem lines_withReturns (cs : List Char) :
    (lines (withReturns cs)).map trimEnd = (lines cs).map trimEnd := by
  induction cs using feed_induct with
  | last line noFeed => rw [withReturns_line noFeed]
  | feed line rest noFeed ih =>
    have noFeed' : '\n' ∉ line ++ ['\r'] := by simp [noFeed]
    rw [withReturns_feed noFeed, lines_line noFeed', lines_line noFeed, List.map_cons,
      List.map_cons, ih, trimEnd_endLine, trimEnd_endLine, trimEnd_concat (by decide)]

end Text

/-! ## Depth -/

def Text.NumberedLine.depth (line : NumberedLine) : Nat := Line.depthOf (Text.trimEnd line.text)

namespace Line

theorem depthOf_eq_zero_iff (cs : List Char) : depthOf cs = 0 ↔ ¬ Text.Indented cs := by
  unfold depthOf
  split
  · next rest => simp [Text.Indented]
  · next other =>
    refine iff_of_true rfl ?_
    rintro ⟨rest, rfl⟩
    exact other rest rfl

theorem indented_trimEnd {cs : List Char} (solid : Text.isBlankLine cs = false) :
    Text.Indented (Text.trimEnd cs) ↔ Text.Indented cs := by
  obtain ⟨after, split, -⟩ := Text.trimEnd_split cs
  have front : Text.trimEnd cs <+: cs := ⟨after, split.symm⟩
  constructor
  · exact fun indented => List.IsPrefix.trans indented front
  · intro indented
    rcases List.prefix_or_prefix_of_prefix indented front with inside | short
    · exact inside
    · rw [← Text.isBlankLine_trimEnd] at solid
      have blank : Text.isBlankLine (Text.trimEnd cs) = true := by
        refine List.all_eq_true.mpr fun c mem => ?_
        obtain rfl : c = ' ' := by simpa using short.subset mem
        decide
      rw [solid] at blank
      contradiction

theorem depth_eq_zero_iff {line : NumberedLine} (solid : Text.isBlankLine line.text = false) :
    line.depth = 0 ↔ ¬ Text.Indented line.text := by
  rw [NumberedLine.depth, depthOf_eq_zero_iff, indented_trimEnd solid]

theorem contentOf_depth (number : Nat) {depth depth' : Nat} (body : List Char)
    {inside : Option Section}
    (level : inside = none → Reading.marker? body = none → (depth = 0 ↔ depth' = 0)) :
    contentOf number depth body inside = contentOf number depth' body inside := by
  rw [contentOf, contentOf]
  cases marker : Reading.marker? body with
  | some s => rfl
  | none =>
    cases inside with
    | some s => simp
    | none => simp [level rfl marker]

end Line

/-! ## Blocks -/

open Block

theorem inside_of_foldlM {policy : Policy} {block : List NumberedLine} {d : Draft}
    (read : block.foldlM (Draft.step policy) {} = .ok d) : d.inside = openSection block := by
  cases policy with
  | lenient =>
    rw [foldlM_lenient] at read
    obtain ⟨cs, -, rfl⟩ := map_eq_ok_iff.mp read
    rfl
  | strict =>
    obtain ⟨cs, rfl⟩ := draft_of_strict read
    rfl

theorem bare_eq_iff {line line' : NumberedLine} :
    line.bare = line'.bare ↔ line.number = line'.number ∧ line.body = line'.body := by
  simp [NumberedLine.bare, NumberedLine.body]

theorem mem_of_mem_linesIn {place : Option Section} {block : List NumberedLine}
    {line : NumberedLine} (mem : line ∈ linesIn place block) : line ∈ block := by
  obtain ⟨⟨inside, l⟩, found, rfl⟩ := List.mem_map.mp mem
  obtain ⟨i, bound, same⟩ := List.mem_mapIdx.mp (List.mem_filter.mp found).1
  obtain rfl : block[i] = l := congrArg Prod.snd same
  exact List.getElem_mem bound

section Alike
variable (policy : Policy)

theorem step_alike {d : Draft} {line line' : NumberedLine} (same : line.bare = line'.bare)
    (level : d.inside = none → line.opens? = none → (line.depth = 0 ↔ line'.depth = 0)) :
    d.step policy line = d.step policy line' := by
  obtain ⟨number, body⟩ := bare_eq_iff.mp same
  have content : line.contentIn d.inside = line'.contentIn d.inside := by
    rw [NumberedLine.contentIn, NumberedLine.contentIn, ← number, ← body]
    exact Line.contentOf_depth _ _ level
  rw [Draft.step_eq_push, Draft.step_eq_push, content, number]

theorem foldlM_alike {block block' : List NumberedLine}
    (same : block.map NumberedLine.bare = block'.map NumberedLine.bare)
    (level : ∀ line ∈ linesIn none block, ∀ line' ∈ block', line'.number = line.number →
      (line.depth = 0 ↔ line'.depth = 0)) :
    block.foldlM (Draft.step policy) {} = block'.foldlM (Draft.step policy) {} := by
  induction block using List.reverseRecOn generalizing block' with
  | nil =>
    obtain rfl := List.map_eq_nil_iff.mp same.symm
    rfl
  | append_singleton block line ih =>
    rw [List.map_append] at same
    obtain ⟨init, last, rfl, front, back⟩ := List.map_eq_append_iff.mp same.symm
    obtain ⟨line', rfl, alike⟩ := List.map_eq_singleton_iff.mp back
    have earlier : ∀ l ∈ linesIn none block, l ∈ linesIn none (block ++ [line]) := by
      intro l mem
      rw [linesIn_concat]
      exact List.mem_append_left _ mem
    have before := ih front.symm fun l mem l' mem' =>
      level l (earlier l mem) l' (List.mem_append_left _ mem')
    rw [foldlM_concat, foldlM_concat, ← before]
    cases read : block.foldlM (Draft.step policy) {} with
    | error e => rfl
    | ok d =>
      refine step_alike policy alike.symm fun outside plain => ?_
      rw [inside_of_foldlM read] at outside
      have here : line ∈ linesIn none (block ++ [line]) := by
        simp [linesIn_concat, outside, plain]
      exact level line here line' (by simp) (bare_eq_iff.mp alike).1

end Alike

/-! ## Texts -/

/-- The lines of a text above the first marker of their block, markers apart. -/
def Rule.preamble (text : String) : List NumberedLine :=
  (Text.blocks text.toList).flatMap (linesIn none)

theorem line_of_number {cs : List Char} {line line' : NumberedLine}
    (mem : line ∈ Text.numberedLines cs) (mem' : line' ∈ Text.numberedLines cs)
    (number : line.number = line'.number) : line = line' := by
  have distinct : ((Text.numberedLines cs).map NumberedLine.number).Nodup :=
    List.pairwise_map.mpr ((Text.numberFrom_sorted 1 (Text.lines cs)).imp Nat.ne_of_lt)
  exact List.inj_on_of_nodup_map distinct mem mem' number

section Texts
variable (policy : Policy) {text other : String}

theorem parseAll_alike
    (same : (Text.lines text.toList).map Text.trim = (Text.lines other.toList).map Text.trim)
    (indented : ∀ line ∈ Rule.preamble text, ∀ line' ∈ Text.numberedLines other.toList,
      line'.number = line.number → (Text.Indented line.text ↔ Text.Indented line'.text)) :
    Rule.parseAll policy text = Rule.parseAll policy other := by
  have blocks : (Text.blocks text.toList).map (List.map NumberedLine.bare) =
      (Text.blocks other.toList).map (List.map NumberedLine.bare) := by
    rw [Text.blocks_bare, Text.blocks_bare, same]
  refine mapM_alike (fun block mem block' mem' alike => ?_) blocks
  rw [Rule.ofBlock, Rule.ofBlock, foldlM_alike policy alike]
  intro line above line' inside' number
  obtain ⟨-, solid⟩ := Text.numbered_of_mem_blocks mem (mem_of_mem_linesIn above)
  obtain ⟨numbered', solid'⟩ := Text.numbered_of_mem_blocks mem' inside'
  have agree := indented line (List.mem_flatMap_of_mem mem above) line' numbered' number
  rw [Line.depth_eq_zero_iff solid, Line.depth_eq_zero_iff solid', agree]

theorem parseAll_trimEnd (same : (Text.lines text.toList).map Text.trimEnd =
      (Text.lines other.toList).map Text.trimEnd) :
    Rule.parseAll policy text = Rule.parseAll policy other := by
  have cut (text : String) : Rule.parseAll policy text =
      ((Text.blocks text.toList).map (List.map NumberedLine.cut)).mapM (Rule.ofBlock policy) := by
    rw [List.mapM_map, Rule.parseAll]
    congr 1
    funext block
    exact (ofBlock_cut policy block).symm
  rw [cut, cut, Text.blocks_cut, Text.blocks_cut, same]

theorem parseAll_withReturns (text : String) :
    Rule.parseAll policy (String.ofList (Text.withReturns text.toList)) =
      Rule.parseAll policy text := by
  apply parseAll_trimEnd
  rw [String.toList_ofList, Text.lines_withReturns]

end Texts

/-- Two texts are read alike, errors included, if their lines are the same once they are trimmed,
    and if the lines above the first marker of a block are indented in both of them or in neither.
    So carriage returns in front of the line feeds, blanks added at the ends of lines, and another
    indentation of markers and of lines below a marker change nothing. -/
theorem parseAll_of_layout (policy : Policy) (text : String) :
    (∀ other : String,
      (Text.lines text.toList).map Text.trim = (Text.lines other.toList).map Text.trim →
      (∀ line ∈ Rule.preamble text, ∀ line' ∈ Text.numberedLines other.toList,
        line'.number = line.number → (Text.Indented line.text ↔ Text.Indented line'.text)) →
      Rule.parseAll policy text = Rule.parseAll policy other) ∧
    Rule.parseAll policy text =
      Rule.parseAll policy (String.ofList (Text.withReturns text.toList)) ∧
    (∀ other : String,
      List.Forall₂ (fun line line' => ∃ blanks, (∀ c ∈ blanks, Text.isBlank c) ∧
        line' = line ++ blanks) (Text.lines text.toList) (Text.lines other.toList) →
      Rule.parseAll policy text = Rule.parseAll policy other) ∧
    ∀ other : String,
      (Text.lines text.toList).map Text.trim = (Text.lines other.toList).map Text.trim →
      (∀ line ∈ Rule.preamble text, line ∈ Text.numberedLines other.toList) →
      Rule.parseAll policy text = Rule.parseAll policy other := by
  refine ⟨fun other same indented => parseAll_alike policy same indented,
    (parseAll_withReturns policy text).symm, fun other longer => ?_, fun other same kept => ?_⟩
  · apply parseAll_trimEnd
    rw [← List.forall₂_eq_eq_eq, List.forall₂_map_left_iff, List.forall₂_map_right_iff]
    refine longer.imp fun line line' ends => ?_
    obtain ⟨blanks, blank, rfl⟩ := ends
    exact (Text.trimEnd_append_blank line blank).symm
  · refine parseAll_alike policy same fun line mem line' mem' number => ?_
    rw [line_of_number mem' (kept line mem) number]

def travelText : String :=
  "Travel bonus (3)\n    approved\nWhen\n    month == 12\nThen\n    amount * 0.1"

def travelDraft : String :=
  "  Travel bonus (3)\t\n     approved\n\tWhen\nmonth == 12 \r\n        Then\n amount * 0.1\n"

theorem parseAll_of_layout_travel :
    (Text.lines travelText.toList).map Text.trim =
      (Text.lines travelDraft.toList).map Text.trim ∧
    (∀ line ∈ Rule.preamble travelText, ∀ line' ∈ Text.numberedLines travelDraft.toList,
      line'.number = line.number → (Text.Indented line.text ↔ Text.Indented line'.text)) ∧
    Rule.parseAll .lenient travelDraft = .ok
      [⟨"Travel bonus", 3, [⟨"month", .eq, .scalar (.int 12)⟩], "amount * 0.1", none⟩] := by
  have read : Rule.parseAll .lenient travelText = .ok
      [⟨"Travel bonus", 3, [⟨"month", .eq, .scalar (.int 12)⟩], "amount * 0.1", none⟩] := by
    apply toOption_eq_some_iff.mp
    decide +kernel
  have same : (Text.lines travelText.toList).map Text.trim =
      (Text.lines travelDraft.toList).map Text.trim := by
    decide +kernel
  have indented : ∀ line ∈ Rule.preamble travelText,
      ∀ line' ∈ Text.numberedLines travelDraft.toList, line'.number = line.number →
        (Text.Indented line.text ↔ Text.Indented line'.text) := by
    decide +kernel
  have alike := (parseAll_of_layout .lenient travelText).1 travelDraft same indented
  exact ⟨same, indented, alike.symm.trans read⟩

end Commission
