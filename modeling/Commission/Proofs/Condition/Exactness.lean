import Commission.Proofs.Rule.Canonical
import Commission.Proofs.Value.Exactness

/-!
A line of the section of conditions is one exactly if it is in the grammar: a field, an operator and
an operand, with gaps between them. Its parts are unique, and so is the condition they make; any
other line there is a marker or unreadable. Main statement: `read_condition_exact`.
-/
namespace Commission

namespace Condition.Grammar

open Reading

def spelling : Operator → List Char
  | .eq => ['=', '=']
  | .ne => ['!', '=']
  | .gt => ['>']
  | .ge => ['>', '=']
  | .lt => ['<']
  | .le => ['<', '=']
  | .isIn => ['i', 'n']

structure Parts where
  field : List Char
  before : List Char
  operator : Operator
  after : List Char
  operand : List Char

def Parts.text (p : Parts) : List Char :=
  p.field ++ (p.before ++ (spelling p.operator ++ (p.after ++ p.operand)))

structure Parts.Make (p : Parts) (c : Condition) : Prop where
  named : Text.Identifier.isIdentifier p.field
  before : Gaps p.before ∧ p.before ≠ []
  after : Gaps p.after ∧ p.after ≠ []
  operand : Operand p.operand c.value
  field : c.field = String.ofList p.field
  operator : c.operator = p.operator

theorem Parts.text_eq (p : Parts) :
    p.text = p.field ++ (p.before ++ (p.operator.symbol.toList ++ (p.after ++ p.operand))) := by
  have symbol : spelling p.operator = p.operator.symbol.toList := by cases p.operator <;> rfl
  rw [text, symbol]

/-! ## Soundness -/

theorem gap?_sound {cs rest : List Char} (read : gap? cs = some rest) :
    ∃ gaps, cs = gaps ++ rest ∧ Gaps gaps ∧ gaps ≠ [] := by
  cases cs with
  | nil => contradiction
  | cons c cs =>
    simp only [gap?] at read
    split at read
    · next first =>
      obtain rfl := Option.some.inj read
      obtain ⟨gaps, gap, split⟩ := skipGaps_split cs
      refine ⟨c :: gaps, congrArg (c :: ·) split, fun d mem => ?_, List.cons_ne_nil c gaps⟩
      rcases List.mem_cons.mp mem with rfl | mem
      · exact first
      · exact gap d mem
    · contradiction

theorem dropText?_sound {front cs rest : List Char} (read : dropText? front cs = some rest) :
    cs = front ++ rest := by
  induction front generalizing cs with
  | nil =>
    obtain rfl : cs = rest := by simpa [dropText?] using read
    rfl
  | cons a front ih =>
    cases cs with
    | nil => contradiction
    | cons c cs =>
      simp only [dropText?] at read
      split at read
      · next same => rw [same, ih read, List.cons_append]
      · contradiction

theorem operator?_sound {cs rest : List Char} {op : Operator}
    (read : operator? cs = some (op, rest)) : cs = op.symbol.toList ++ rest := by
  obtain ⟨op', -, found⟩ := List.exists_of_findSome?_eq_some read
  obtain ⟨rest', dropped, same⟩ := Option.map_eq_some_iff.mp found
  obtain ⟨rfl, rfl⟩ := by simpa using same
  exact dropText?_sound dropped

theorem condition_sound {cs : List Char} {c : Condition} (read : condition cs = .ok c) :
    ∃ p gaps, cs = Parts.text p ++ gaps ∧ p.Make c ∧ Gaps gaps := by
  unfold condition at read
  split at read
  · contradiction
  next field afterField fieldRead =>
  split at read
  · contradiction
  next fromOperator gapRead =>
  split at read
  · contradiction
  next op afterOperator operatorRead =>
  split at read
  · contradiction
  next fromOperand gapRead' =>
  split at read
  · contradiction
  next v rest operandRead =>
  split at read
  · contradiction
  next spent =>
  obtain rfl : (⟨String.ofList field, op, v⟩ : Condition) = c := by simpa using read
  obtain ⟨rfl, named, -⟩ := Text.Identifier.read?_eq_some fieldRead
  obtain ⟨before, rfl, isGap, filled⟩ := gap?_sound gapRead
  obtain rfl := operator?_sound operatorRead
  obtain ⟨after, rfl, isGap', filled'⟩ := gap?_sound gapRead'
  obtain ⟨operand, rfl, phrase⟩ := value?_sound _ _ _ operandRead
  obtain ⟨gaps, gap, last⟩ := skipGaps_split rest
  rw [spent, List.append_nil] at last
  refine ⟨⟨field, before, op, after, operand⟩, gaps, ?_, ?_, gap⟩
  · rw [last]
    simp [Parts.text_eq]
  · exact ⟨named, ⟨isGap, filled⟩, ⟨isGap', filled'⟩, phrase, rfl, rfl⟩

/-! ## Completeness -/

theorem operand_solid {cs : List Char} {v : Value} (operand : Operand cs v) (rest : List Char) :
    ∀ c ∈ (cs ++ rest).head?, Text.isGap c = false := by
  cases operand with
  | scalar item => exact item_solid item rest
  | list _ _ _ => exact Text.stop_cons (by decide) _

theorem isPart_of_isGap {c : Char} (gap : Text.isGap c) : Text.Identifier.isPart c = false := by
  rcases (Text.isGap_iff c).mp gap with rfl | rfl
  · decide
  · decide

theorem gap_head {gaps : List Char} (gap : Gaps gaps ∧ gaps ≠ []) (cs : List Char) :
    ∃ c tail, gaps ++ cs = c :: tail ∧ Text.isGap c := by
  obtain ⟨all, filled⟩ := gap
  cases gaps with
  | nil => contradiction
  | cons c gaps => exact ⟨c, gaps ++ cs, rfl, all c (by simp)⟩

theorem part_stops {gaps : List Char} (gap : Gaps gaps ∧ gaps ≠ []) (cs : List Char) :
    ∀ c ∈ (gaps ++ cs).head?, Text.Identifier.isPart c = false := by
  obtain ⟨c, tail, text, first⟩ := gap_head gap cs
  rw [text]
  exact Text.stop_cons (isPart_of_isGap first) tail

theorem operator?_append (op : Operator) {gaps : List Char} (gap : Gaps gaps ∧ gaps ≠ [])
    (cs : List Char) :
    operator? (op.symbol.toList ++ (gaps ++ cs)) = some (op, gaps ++ cs) := by
  obtain ⟨c, tail, text, first⟩ := gap_head gap cs
  rw [text]
  exact operator?_symbol op first tail

theorem condition_complete {p : Parts} {c : Condition} (make : p.Make c) {gaps : List Char}
    (gap : Gaps gaps) : condition (p.text ++ gaps) = .ok c := by
  have closes : Closes gaps := by simpa using closes_append gap closes_nil
  have spent := skipGaps_gaps gap
  have field := Text.Identifier.read?_append make.named (part_stops make.before
    (p.operator.symbol.toList ++ (p.after ++ (p.operand ++ gaps))))
  have before := gap?_append make.before.2 make.before.1
    (isGap_symbol p.operator (p.after ++ (p.operand ++ gaps)))
  have operator := operator?_append p.operator make.after (p.operand ++ gaps)
  have after := gap?_append make.after.2 make.after.1 (operand_solid make.operand gaps)
  have operand := value?_complete _ _ _ make.operand closes
  simp only [Parts.text_eq, List.append_assoc, condition, field, before, operator, after, operand,
    spent]
  rw [← make.field, ← make.operator]

/-! ## Uniqueness -/

theorem isGap_of_mem_symbol (op : Operator) : ∀ c ∈ op.symbol.toList, !Text.isGap c :=
  List.all_eq_true.mp (by cases op <;> decide)

theorem gap_stops_symbol {gaps : List Char} (gap : Gaps gaps ∧ gaps ≠ []) (cs : List Char) :
    ∀ c ∈ (gaps ++ cs).head?, (!Text.isGap c) = false := by
  obtain ⟨c, tail, text, first⟩ := gap_head gap cs
  rw [text]
  exact Text.stop_cons (by simp [first]) tail

theorem symbol_injective {op op' : Operator} (same : op.symbol.toList = op'.symbol.toList) :
    op = op' := by
  have symbols : op.symbol = op'.symbol := String.toList_inj.mp same
  apply Option.some.inj
  rw [← Operator.ofSymbol?_symbol op, ← Operator.ofSymbol?_symbol op', symbols]

theorem parts_unique {p q : Parts} {c d : Condition} (make : p.Make c) (make' : q.Make d)
    (same : p.text = q.text) : p = q ∧ c = d := by
  have noGap := operand_solid make.operand []
  have noGap' := operand_solid make'.operand []
  rw [List.append_nil] at noGap noGap'
  have texts := same
  rw [p.text_eq, q.text_eq] at texts
  obtain ⟨field, same₁⟩ := Text.run_unique (Text.Identifier.isPart_of_mem make.named)
    (part_stops make.before _) (Text.Identifier.isPart_of_mem make'.named)
    (part_stops make'.before _) texts
  obtain ⟨before, same₂⟩ := Text.run_unique make.before.1 (isGap_symbol p.operator _)
    make'.before.1 (isGap_symbol q.operator _) same₁
  obtain ⟨symbol, same₃⟩ := Text.run_unique (isGap_of_mem_symbol p.operator)
    (gap_stops_symbol make.after _) (isGap_of_mem_symbol q.operator)
    (gap_stops_symbol make'.after _) same₂
  obtain ⟨after, operand⟩ := Text.run_unique make.after.1 noGap make'.after.1 noGap' same₃
  constructor
  · cases p
    cases q
    simp only [Parts.mk.injEq]
    exact ⟨field, before, symbol_injective symbol, after, operand⟩
  · have nothing : Gaps [] := by simp [Gaps]
    have read := condition_complete make nothing
    rw [same, condition_complete make' nothing] at read
    exact (Except.ok.inj read).symm

/-! ## Lines -/

theorem nil_of_trimmed {text gaps : List Char} (trimmed : Text.trim (text ++ gaps) = text ++ gaps)
    (gap : Gaps gaps) : gaps = [] := by
  have last := ((Text.trim_eq_self_iff _).mp trimmed).2
  apply Decidable.byContradiction
  intro filled
  have blank := Text.isBlank_of_isGap (gap _ (List.getLast_mem filled))
  rw [Text.getLast?_append_filled _ filled, List.getLast?_eq_some_getLast filled] at last
  rw [last _ rfl] at blank
  contradiction

/-- A trimmed text is a condition only as a whole. -/
theorem condition_iff {body : List Char} (trimmed : Text.trim body = body) (c : Condition) :
    condition body = .ok c ↔ ∃ p : Parts, p.text = body ∧ p.Make c := by
  constructor
  · intro read
    obtain ⟨p, gaps, rfl, make, gap⟩ := condition_sound read
    obtain rfl := nil_of_trimmed trimmed gap
    exact ⟨p, (List.append_nil _).symm, make⟩
  · rintro ⟨p, rfl, make⟩
    have read := condition_complete make (by simp [Gaps] : Gaps [])
    rwa [List.append_nil] at read

theorem condition_error_ne_nil {cs : List Char} {expected : List Expected}
    (read : condition cs = .error expected) : expected ≠ [] := by
  rintro rfl
  unfold condition at read
  repeat' split at read
  all_goals simp at read

end Condition.Grammar

theorem Line.depthOf_of_tight {body : List Char} (tight : Text.Tight body) : depthOf body = 0 := by
  rw [depthOf]
  rintro cs rfl
  have solid := tight.1 ' ' (by simp)
  contradiction

theorem Line.read_trimmed (number : Nat) {body : List Char} (trimmed : Text.trim body = body) :
    Line.read number body (some .conditions) =
      match Reading.marker? body, Reading.condition body with
      | some opened, _ => .ok ⟨0, .marker opened⟩
      | none, .ok c => .ok ⟨0, .condition c⟩
      | none, .error expected =>
        .error (.unreadable number (String.ofList body) (expected ++ [.sectionMarker])) := by
  have tight := (Text.trim_eq_self_iff body).mp trimmed
  rw [Line.read, trimmed, Text.trimEnd_of_last tight.2, depthOf_of_tight tight, contentOf]
  cases Reading.marker? body with
  | some opened => rfl
  | none =>
    cases Reading.condition body with
    | ok c => rfl
    | error expected => rfl

open Condition.Grammar in
theorem read_condition_exact (number : Nat) {body : List Char} (trimmed : Text.trim body = body) :
    (∀ depth c, Line.read number body (some .conditions) = .ok ⟨depth, .condition c⟩ ↔
      depth = 0 ∧ (∀ s : Section, s.keyword.toList ≠ body) ∧
        ∃ p : Parts, p.text = body ∧ p.Make c) ∧
    (∀ (p q : Parts) (c d : Condition), p.text = body → q.text = body → p.Make c → q.Make d →
      p = q ∧ c = d) ∧
    ((∀ s : Section, s.keyword.toList ≠ body) →
      (¬ ∃ (p : Parts) (c : Condition), p.text = body ∧ p.Make c) →
      ∃ expected ≠ [], Line.read number body (some .conditions) =
        .error (.unreadable number (String.ofList body) (expected ++ [.sectionMarker]))) := by
  rw [Line.read_trimmed number trimmed, ← marker?_eq_none_iff]
  simp only [← condition_iff trimmed]
  refine ⟨?_, ?_, ?_⟩
  · intro depth c
    cases Reading.marker? body with
    | some opened => simp
    | none =>
      cases Reading.condition body with
      | ok read => simp [eq_comm]
      | error expected => simp
  · rintro p q c d rfl same make make'
    exact parts_unique make make' same.symm
  · intro none outside
    rw [none]
    cases read : Reading.condition body with
    | ok c =>
      obtain ⟨p, make⟩ := (condition_iff trimmed c).mp read
      exact absurd ⟨p, c, make⟩ outside
    | error expected => exact ⟨expected, condition_error_ne_nil read, rfl⟩

theorem read_condition_exact_membership :
    Text.trim "region in [7, north]".toList = "region in [7, north]".toList ∧
    Line.read 3 "region in [7, north]".toList (some .conditions) =
      .ok ⟨0, .condition ⟨"region", .isIn, .list [.int 7, .text "north"]⟩⟩ := by
  have trimmed : Text.trim "region in [7, north]".toList = "region in [7, north]".toList := by
    decide
  have seven : Condition.Grammar.Item ['7'] (.int 7) :=
    .number (.integer .none (.positive (by decide) (List.all_eq_true.mp (by decide))) (by decide))
  have north : Condition.Grammar.Item "north".toList (.text "north") :=
    .word (.text (by decide) (by decide))
  have space : Condition.Grammar.Gaps [' '] := List.all_eq_true.mp (by decide)
  have nothing : Condition.Grammar.Gaps [] := List.all_eq_true.mp (by decide)
  have operand : Condition.Grammar.Operand "[7, north]".toList (.list [.int 7, .text "north"]) :=
    .list nothing (.some seven (.cons nothing space north .nil)) nothing
  refine ⟨trimmed, ((read_condition_exact 3 trimmed).1 0 _).mpr ⟨rfl, fun s => ?_, ?_⟩⟩
  · cases s <;> decide
  · exact ⟨⟨"region".toList, [' '], .isIn, [' '], "[7, north]".toList⟩, by decide, by decide,
      ⟨space, by decide⟩, ⟨space, by decide⟩, operand, rfl, rfl⟩

example : [Section.conditions, .calculation, .notes].map Section.keyword =
    ["When", "Then", "Notes"] := rfl

end Commission
