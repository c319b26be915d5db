import Commission.Proofs.Failure
import Commission.Proofs.Rule.Parentheses

/-!
The requirements on a rule in the order in which they count. The check of rules accepts a rule
exactly if all of them are met, and else reports the first one that is not, whatever else is wrong.
Main statement: `validation_exact`.
-/
namespace Commission

structure Requirement where
  met : Prop
  error : ValidationError

namespace Requirement

def FirstBroken (qs : List Requirement) (e : ValidationError) : Prop :=
  ∃ before q after, qs = before ++ q :: after ∧ (∀ p ∈ before, p.met) ∧ ¬ q.met ∧ q.error = e

inductive Verdict : List Requirement → Except ValidationError Unit → Prop where
  | accepted : Verdict [] (.ok ())
  | met {q : Requirement} {qs : List Requirement} {result : Except ValidationError Unit}
      (here : q.met) (later : Verdict qs result) : Verdict (q :: qs) result
  | broken {q : Requirement} {qs : List Requirement} (here : ¬ q.met) :
      Verdict (q :: qs) (.error q.error)

namespace Verdict
variable {qs ps : List Requirement} {result other : Except ValidationError Unit}
  {p : Prop} {b : Bool} {e : ValidationError}

theorem ok_iff (verdict : Verdict qs result) : result = .ok () ↔ ∀ q ∈ qs, q.met := by
  induction verdict with
  | accepted => simp
  | met here later ih =>
    rw [ih, List.forall_mem_cons]
    exact (and_iff_right here).symm
  | broken here => simp [here]

theorem error_iff (verdict : Verdict qs result) (e : ValidationError) :
    result = .error e ↔ FirstBroken qs e := by
  induction verdict with
  | accepted => simp [FirstBroken]
  | @met q qs result here later ih =>
    rw [ih]
    constructor
    · rintro ⟨before, broken, after, rfl, earlier, unmet, same⟩
      exact ⟨q :: before, broken, after, rfl, by simpa [here] using earlier, unmet, same⟩
    · rintro ⟨before, broken, after, split, earlier, unmet, same⟩
      -- The first requirement is met, so it is not the broken one.
      cases before with
      | nil =>
        obtain ⟨rfl, -⟩ := List.cons.inj split
        exact absurd here unmet
      | cons first before =>
        obtain ⟨-, rfl⟩ := List.cons.inj split
        exact ⟨before, broken, after, rfl, fun p mem => earlier p (by simp [mem]), unmet, same⟩
  | @broken q qs here =>
    constructor
    · intro same
      exact ⟨[], q, qs, rfl, by simp, here, Except.error.inj same⟩
    · rintro ⟨before, broken, after, split, earlier, unmet, rfl⟩
      cases before with
      | nil =>
        obtain ⟨rfl, -⟩ := List.cons.inj split
        rfl
      | cons first before =>
        obtain ⟨rfl, -⟩ := List.cons.inj split
        exact absurd (earlier q (by simp)) here

theorem append (first : Verdict qs result) (second : Verdict ps other) :
    Verdict (qs ++ ps) (result >>= fun _ => other) := by
  induction first with
  | accepted => exact second
  | met here later ih => exact .met here ih
  | broken here => exact .broken here

theorem require (exact : b ↔ p) : Verdict [⟨p, e⟩] (Rule.require b e) := by
  cases b with
  | true => exact .met (exact.mp rfl) .accepted
  | false => exact .broken fun met => Bool.noConfusion (exact.mpr met)

theorem requireThen (exact : b ↔ p) (later : Verdict qs result) :
    Verdict (⟨p, e⟩ :: qs) (Rule.require b e >>= fun _ => result) :=
  (require exact).append later

theorem all_met (met : ∀ q ∈ qs, q.met) (later : Verdict ps result) :
    Verdict (qs ++ ps) result := by
  induction qs with
  | nil => exact later
  | cons q qs ih =>
    obtain ⟨here, others⟩ := List.forall_mem_cons.mp met
    exact .met here (ih others)

theorem first_broken {q : Requirement} (met : ∀ p ∈ qs, p.met) (here : ¬ q.met) :
    Verdict (qs ++ q :: ps) (.error q.error) :=
  all_met met (.broken here)

end Verdict

end Requirement

namespace Rule
open Requirement

/-! ## Names, priorities and notes -/

def NamePattern (cs : List Char) : Prop :=
  ∃ first rest, cs = first :: rest ∧ first.isAlpha ∧ ∀ c ∈ rest, c.isAlphanum ∨ c = '_' ∨ c = ' '

def nameRequirements (name : String) : List Requirement :=
  [⟨name ≠ "", .emptyName⟩, ⟨name.length ≤ 100, .nameTooLong name.length⟩,
    ⟨NamePattern name.toList, .invalidName name⟩]

def priorityRequirements (priority : Int64) : List Requirement :=
  [⟨1 ≤ priority.toInt ∧ priority.toInt ≤ 100, .priorityOutOfRange priority⟩]

def notesRequirements (notes : Option String) : List Requirement :=
  notes.toList.map fun text => ⟨text.length ≤ 500, .notesTooLong text.length⟩

theorem isName_iff (cs : List Char) : isName cs ↔ NamePattern cs := by
  cases cs with
  | nil => simp [isName, NamePattern]
  | cons c cs =>
    simp only [isName, Bool.and_eq_true, List.all_eq_true, Bool.or_eq_true, beq_iff_eq, or_assoc]
    constructor
    · rintro ⟨letter, others⟩
      exact ⟨c, cs, rfl, letter, others⟩
    · rintro ⟨first, rest, same, letter, others⟩
      obtain ⟨rfl, rfl⟩ := List.cons.inj same
      exact ⟨letter, others⟩

theorem verdict_checkName (name : String) : Verdict (nameRequirements name) (checkName name) := by
  refine .requireThen ?_ (.requireThen ?_ (.require ?_))
  · simp
  · exact decide_eq_true_iff
  · exact isName_iff name.toList

theorem verdict_checkPriority (priority : Int64) :
    Verdict (priorityRequirements priority) (checkPriority priority) := by
  apply Verdict.require
  rw [Bool.and_eq_true]
  exact and_congr decide_eq_true_iff decide_eq_true_iff

theorem verdict_checkNotes (notes : Option String) :
    Verdict (notesRequirements notes) (checkNotes notes) := by
  cases notes with
  | none => exact .accepted
  | some text =>
    apply Verdict.require
    exact decide_eq_true_iff

theorem met_name (name : String) : (∀ q ∈ nameRequirements name, q.met) ↔
    name ≠ "" ∧ name.length ≤ 100 ∧ NamePattern name.toList := by
  simp [nameRequirements]

theorem met_priority (priority : Int64) : (∀ q ∈ priorityRequirements priority, q.met) ↔
    1 ≤ priority.toInt ∧ priority.toInt ≤ 100 := by
  simp [priorityRequirements]

theorem met_notes (notes : Option String) : (∀ q ∈ notesRequirements notes, q.met) ↔
    ∀ text, notes = some text → text.length ≤ 500 := by
  cases notes <;> simp [notesRequirements]

/-! ## Conditions -/

/-- The field comes before the shape of the value: a list of one to ten items behind `in`, a single
    value behind any other operator. -/
def conditionRequirements (fields : FieldSet) (index : Nat) (c : Condition) : List Requirement :=
  let items := c.value.toList?.getD []
  ⟨c.field ∈ fields.names, .unknownField index c.field fields.names⟩ ::
    if c.operator = .isIn then
      [⟨c.value = .list items, .listExpected index⟩, ⟨items ≠ [], .emptyList index⟩,
        ⟨items.length ≤ 10, .listTooLong index items.length⟩]
    else [⟨∃ s, c.value = .scalar s, .scalarExpected index c.operator⟩]

def conditionsRequirements (fields : FieldSet) (cs : List Condition) : List Requirement :=
  ⟨cs ≠ [], .noConditions⟩ :: ⟨cs.length ≤ 10, .tooManyConditions cs.length⟩ ::
    (cs.zipIdx 1).flatMap fun (c, index) => conditionRequirements fields index c

structure Fits (fields : FieldSet) (c : Condition) : Prop where
  known : c.field ∈ fields.names
  list : c.operator = .isIn → ∃ items, c.value = .list items ∧ items ≠ [] ∧ items.length ≤ 10
  scalar : c.operator ≠ .isIn → ∃ s, c.value = .scalar s

theorem verdict_checkCondition (fields : FieldSet) (index : Nat) (c : Condition) :
    Verdict (conditionRequirements fields index c) (checkCondition fields index c) := by
  obtain ⟨field, operator, value⟩ := c
  refine .requireThen (fields.contains_iff field) ?_
  by_cases isIn : operator = .isIn
  · subst isIn
    rw [if_pos rfl]
    cases value with
    | scalar s => exact .broken nofun
    | list items =>
      refine .met rfl (.requireThen ?_ (.require ?_))
      · simp [Value.toList?]
      · exact decide_eq_true_iff
  · rw [if_neg isIn]
    cases value with
    | scalar s => cases operator <;> first | contradiction | exact .met ⟨s, rfl⟩ .accepted
    | list items => cases operator <;> first | contradiction | exact .broken nofun

theorem verdict_checkConditionsFrom (fields : FieldSet) (cs : List Condition) (index : Nat) :
    Verdict ((cs.zipIdx index).flatMap fun (c, index) => conditionRequirements fields index c)
      (checkConditionsFrom fields index cs) := by
  induction cs generalizing index with
  | nil => exact .accepted
  | cons c cs ih =>
    rw [List.zipIdx_cons, List.flatMap_cons]
    exact (verdict_checkCondition fields index c).append (ih (index + 1))

theorem verdict_checkConditions (fields : FieldSet) (cs : List Condition) :
    Verdict (conditionsRequirements fields cs) (checkConditions fields cs) := by
  refine .requireThen ?_ (.requireThen ?_ (verdict_checkConditionsFrom fields cs 1))
  · simp
  · exact decide_eq_true_iff

theorem met_condition (fields : FieldSet) (index : Nat) (c : Condition) :
    (∀ q ∈ conditionRequirements fields index c, q.met) ↔ Fits fields c := by
  rw [conditionRequirements, List.forall_mem_cons]
  by_cases isIn : c.operator = .isIn
  · rw [if_pos isIn]
    constructor
    · rintro ⟨known, met⟩
      refine ⟨known, fun _ => ⟨c.value.toList?.getD [], ?_⟩, fun other => absurd isIn other⟩
      simpa using met
    · rintro ⟨known, list, -⟩
      obtain ⟨items, held, some, few⟩ := list isIn
      simp [known, held, Value.toList?, some, few]
  · rw [if_neg isIn]
    constructor
    · rintro ⟨known, met⟩
      exact ⟨known, fun same => absurd same isIn, fun _ => by simpa using met⟩
    · rintro ⟨known, -, scalar⟩
      simpa [known] using scalar isIn

theorem met_conditions (fields : FieldSet) (cs : List Condition) :
    (∀ q ∈ conditionsRequirements fields cs, q.met) ↔
      cs ≠ [] ∧ cs.length ≤ 10 ∧ ∀ c ∈ cs, Fits fields c := by
  rw [conditionsRequirements, List.forall_mem_cons, List.forall_mem_cons]
  apply and_congr_right
  intro some
  apply and_congr_right
  intro few
  constructor
  · intro met c mem
    obtain ⟨i, at_i⟩ := List.mem_iff_getElem?.mp mem
    have numbered : (c, i + 1) ∈ cs.zipIdx 1 := by
      simp [List.mk_mem_zipIdx_iff_le_and_getElem?_sub, at_i]
    apply (met_condition fields (i + 1) c).mp
    intro q among
    exact met q (List.mem_flatMap.mpr ⟨(c, i + 1), numbered, among⟩)
  · intro fit q among
    obtain ⟨⟨c, index⟩, mem, among⟩ := List.mem_flatMap.mp among
    have fits := fit c (List.fst_mem_of_mem_zipIdx mem)
    exact (met_condition fields index c).mpr fits q among

/-! ## Calculations -/

def CalculationChar (c : Char) : Prop := c.isAlphanum ∨ c ∈ "_+-*/(). ,".toList

def calculationRequirements (calculation : String) : List Requirement :=
  let cs := Text.trim calculation.toList
  let text := String.ofList cs
  ⟨cs ≠ [], .emptyCalculation⟩ ::
    ⟨Text.byteCount cs ≤ 1000, .calculationTooLong (Text.byteCount cs)⟩ ::
    (cs.map (fun c => ⟨CalculationChar c, .invalidCalculationChar text c⟩) ++
      [⟨Balanced cs, .unbalancedParentheses text⟩, ⟨Shallow 32 cs, .nestingTooDeep text⟩])

structure IsCalculation (cs : List Char) : Prop where
  filled : cs ≠ []
  short : Text.byteCount cs ≤ 1000
  characters : ∀ c ∈ cs, CalculationChar c
  balanced : Balanced cs
  shallow : Shallow 32 cs

theorem isCalculationChar_iff (c : Char) : isCalculationChar c ↔ CalculationChar c := by
  have symbols : calculationSymbols = "_+-*/(). ,".toList := by decide
  rw [isCalculationChar, CalculationChar, Bool.or_eq_true, symbols, List.contains_iff_mem]

theorem verdict_nesting (cs : List Char) (text : String) :
    Verdict [⟨Balanced cs, .unbalancedParentheses text⟩, ⟨Shallow 32 cs, .nestingTooDeep text⟩]
      (match nesting? 0 0 cs with
      | none => .error (.unbalancedParentheses text)
      | some deepest => require (deepest ≤ maxNesting) (.nestingTooDeep text)) := by
  cases counted : nesting? 0 0 cs with
  | none =>
    have unbalanced : ¬ Balanced cs := by
      rw [← nesting?_isSome_iff, counted]
      exact Bool.noConfusion
    exact .broken unbalanced
  | some deepest =>
    have balanced : Balanced cs := by
      rw [← nesting?_isSome_iff, counted]
      rfl
    apply Verdict.met
    · exact balanced
    · apply Verdict.require
      rw [decide_eq_true_iff]
      exact le_iff_shallow counted 32

theorem verdict_checkCalculation (calculation : String) :
    Verdict (calculationRequirements calculation) (checkCalculation calculation) := by
  refine .requireThen ?_ (.requireThen ?_ ?_)
  · simp
  · exact decide_eq_true_iff
  generalize Text.trim calculation.toList = cs
  -- All characters count before any parenthesis does.
  split
  · next found first =>
    obtain ⟨refused, before, after, rfl, passed⟩ := List.find?_eq_some_iff_append.mp first
    rw [List.map_append, List.map_cons, List.append_assoc]
    apply Verdict.first_broken
    · simpa [isCalculationChar_iff] using passed
    · simpa [← isCalculationChar_iff] using refused
  · next none =>
    apply Verdict.all_met
    · simpa [isCalculationChar_iff] using none
    · exact verdict_nesting cs (String.ofList cs)

theorem met_calculation (calculation : String) :
    (∀ q ∈ calculationRequirements calculation, q.met) ↔
      IsCalculation (Text.trim calculation.toList) := by
  rw [calculationRequirements]
  generalize Text.trim calculation.toList = cs
  simp only [List.forall_mem_cons, List.forall_mem_append, List.forall_mem_map, List.not_mem_nil]
  constructor
  · rintro ⟨filled, short, characters, balanced, shallow, -⟩
    exact ⟨filled, short, characters, balanced, shallow⟩
  · rintro ⟨filled, short, characters, balanced, shallow⟩
    exact ⟨filled, short, characters, balanced, shallow, nofun⟩

/-! ## Rules -/

def requirements (fields : FieldSet) (r : Rule) : List Requirement :=
  nameRequirements r.name ++ priorityRequirements r.priority ++
    conditionsRequirements fields r.conditions ++ calculationRequirements r.calculation ++
    notesRequirements r.notes

theorem verdict_validate (fields : FieldSet) (r : Rule) :
    Verdict (r.requirements fields) (r.validate fields) := by
  have name := verdict_checkName r.name
  have priority := verdict_checkPriority r.priority
  have conditions := verdict_checkConditions fields r.conditions
  have calculation := verdict_checkCalculation r.calculation
  have notes := verdict_checkNotes r.notes
  simp only [requirements, List.append_assoc]
  exact name.append (priority.append (conditions.append (calculation.append notes)))

structure Acceptable (fields : FieldSet) (r : Rule) : Prop where
  named : r.name ≠ "" ∧ r.name.length ≤ 100 ∧ NamePattern r.name.toList
  priority : 1 ≤ r.priority.toInt ∧ r.priority.toInt ≤ 100
  conditions : r.conditions ≠ [] ∧ r.conditions.length ≤ 10 ∧ ∀ c ∈ r.conditions, Fits fields c
  calculation : IsCalculation (Text.trim r.calculation.toList)
  notes : ∀ text, r.notes = some text → text.length ≤ 500

theorem acceptable_iff (fields : FieldSet) (r : Rule) :
    r.Acceptable fields ↔ ∀ q ∈ r.requirements fields, q.met := by
  simp only [requirements, List.forall_mem_append, met_name, met_priority, met_conditions,
    met_calculation, met_notes]
  constructor
  · rintro ⟨named, priority, conditions, calculation, notes⟩
    exact ⟨⟨⟨⟨named, priority⟩, conditions⟩, calculation⟩, notes⟩
  · rintro ⟨⟨⟨⟨named, priority⟩, conditions⟩, calculation⟩, notes⟩
    exact ⟨named, priority, conditions, calculation, notes⟩

theorem validate_eq_ok_iff (fields : FieldSet) (r : Rule) :
    r.validate fields = .ok () ↔ r.Acceptable fields := by
  rw [acceptable_iff]
  exact (verdict_validate fields r).ok_iff

/-- A rule is accepted exactly if it is acceptable, and the error of a rule is that of the first
    requirement that it does not meet. -/
theorem validation_exact (fields : FieldSet) (r : Rule) :
    (r.validate fields = .ok () ↔ r.Acceptable fields) ∧
    ∀ e, r.validate fields = .error e ↔ FirstBroken (r.requirements fields) e := by
  constructor
  · exact validate_eq_ok_iff fields r
  · exact (verdict_validate fields r).error_iff

example : checkCalculation (String.ofList (List.replicate 33 '(')) =
    .error (.unbalancedParentheses (String.ofList (List.replicate 33 '('))) := by rfl

end Rule

end Commission
