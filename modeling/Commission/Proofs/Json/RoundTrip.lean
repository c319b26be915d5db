import Commission.Json.Codec
import Commission.Proofs.Json.Compact

/-!
Rules, contexts and their parts survive JSON in every faithful format, if their floats do. A tree
that is written for a scalar or a value is taken by the alternative of its kind and by none before
it, and a record finds its fields in whatever order its members come back. Main statement:
`json_round_trip`.
-/
namespace Commission

def Scalar.floats : Scalar → List Binary64
  | float x => [x]
  | _ => []

def Value.floats : Value → List Binary64
  | scalar s => s.floats
  | list items => items.flatMap Scalar.floats

def Rule.floats (r : Rule) : List Binary64 := r.conditions.flatMap fun c => c.value.floats

def Context.floats (ctx : Context) : List Binary64 :=
  ctx.entries.flatMap fun entry => entry.2.floats

def Json.Format.Decodes {α : Type} (F : Format) (ofJson? : Json → Option α) (j : Json) (a : α) :
    Prop :=
  (F.back? j).bind ofJson? = some a

/-! ## Alternatives -/

theorem Scalar.ofJson?_toJson (s : Scalar) : ofJson? s.toJson = some s := by
  rw [ofJson?]
  cases s with
  | int n => exact Json.untagged_taken (by simp [toJson, Json.toInt64?, Reading.int64?_toInt]) _
  | float x => rw [Json.untagged_passed, Json.untagged_taken] <;> rfl
  | bool b =>
    rw [Json.untagged_passed, Json.untagged_passed, Json.untagged_taken] <;> rfl
  | text s =>
    rw [Json.untagged_passed, Json.untagged_passed, Json.untagged_passed,
      Json.untagged_taken] <;> rfl

theorem Scalar.mapM_toJson (items : List Scalar) :
    (items.map toJson).mapM ofJson? = some items := by
  induction items with
  | nil => rfl
  | cons s items ih => rw [List.map_cons, List.mapM_cons, ofJson?_toJson, ih]; rfl

theorem Scalar.ofJson?_array (items : List Json) : ofJson? (.array items) = none := rfl

theorem Value.ofJson?_toJson (v : Value) : ofJson? v.toJson = some v := by
  cases v with
  | scalar s => exact Json.untagged_taken (by rw [toJson, Scalar.ofJson?_toJson, Option.map_some]) _
  | list items =>
    have passed : (Scalar.ofJson? (toJson (.list items))).map scalar = none := by
      rw [toJson, Scalar.ofJson?_array, Option.map_none]
    refine (Json.untagged_passed passed _).trans (Json.untagged_taken ?_ _)
    rw [toJson, Json.toItems?, Option.bind_eq_bind, Option.bind_some, Scalar.mapM_toJson]
    rfl

theorem Operator.ofJson?_toJson (op : Operator) : ofJson? op.toJson = some op := by
  cases op <;> rfl

/-! ## Records -/

theorem Json.member_perm {members others : List (String × Json)} (perm : members.Perm others)
    (key : String) : member key members = member key others := by
  have found := perm.filter (fun m => m.1 == key)
  rw [member, member]
  generalize members.filter _ = left at found
  generalize others.filter _ = right at found
  match right with
  | [] => rw [List.perm_nil.mp found]
  | [entry] => rw [List.perm_singleton.mp found]
  | entry :: next :: rest =>
    match left, found.length_eq with
    | _ :: _ :: _, _ => rfl

theorem Json.fields?_perm {members others : List (String × Json)} (perm : members.Perm others)
    (names : List String) : (object members).fields? names = (object others).fields? names := by
  simp only [fields?, member_perm perm]

theorem Condition.ofJson?_members {c : Condition} {order : List (String × Json)}
    (perm : order.Perm [("field", .text c.field), ("operator", c.operator.toJson),
      ("value", c.value.toJson)]) : ofJson? (.object order) = some c := by
  have fields : (Json.object order).fields? ["field", "operator", "value"] =
      some [some (.text c.field), some c.operator.toJson, some c.value.toJson] := by
    rw [Json.fields?_perm perm]
    rfl
  simp [ofJson?, fields, Json.toText?, Operator.ofJson?_toJson, Value.ofJson?_toJson]

namespace Rule

theorem calculationOfJson?_toJson (text : String) :
    calculationOfJson? (calculationToJson text) = some text := rfl

theorem ofJson?_members {r : Rule} {items : List Json} {order : List (String × Json)}
    (perm : order.Perm (r.members items))
    (conditions : items.mapM Condition.ofJson? = some r.conditions) :
    ofJson? (.object order) = some r := by
  have fields : (Json.object order).fields?
      ["name", "priority", "conditions", "calculation", "notes"] =
      some [some (.text r.name), some (.int r.priority.toInt), some (.array items),
        some (calculationToJson r.calculation), r.notes.map Json.text] := by
    rw [Json.fields?_perm perm, members]
    cases r.notes <;> rfl
  have notes : notesOfJson? (r.notes.map Json.text) = some r.notes := by cases r.notes <;> rfl
  simp [ofJson?, fields, Json.toText?, Json.toInt64?, Reading.int64?_toInt, Json.toItems?,
    conditions, calculationOfJson?_toJson, notes]

theorem nodup_members (r : Rule) (items : List Json) :
    ((r.members items).map Prod.fst).Nodup := by
  rw [members]
  cases r.notes <;> simp

end Rule

theorem Context.toContext?_members {ctx : Context} {entries : List (String × Value)}
    (perm : entries.Perm ctx.entries) : Json.toContext? (.ofEntries entries) = some ctx := by
  have pairs : (entries.map Json.ofEntry).mapM Json.toEntry? = some entries := by
    clear perm
    induction entries with
    | nil => rfl
    | cons entry entries ih =>
      rw [List.map_cons, List.mapM_cons, ih, Json.toEntry?, Json.ofEntry, Value.ofJson?_toJson]
      rfl
  rw [Json.ofEntries, Json.toContext?, pairs, Option.map_some, NameMap.ofList_perm perm]

/-! ## Nesting -/

theorem Scalar.nested_toJson (s : Scalar) : s.toJson.Nested 0 := by cases s <;> trivial

theorem Value.nested_toJson (v : Value) : v.toJson.Nested 1 := by
  cases v with
  | scalar s => exact s.nested_toJson.succ
  | list items => exact List.forall_mem_map.mpr fun s _ => s.nested_toJson

theorem Condition.nested_toJson (c : Condition) : c.toJson.Nested 2 := by
  simp [toJson, Json.Nested, Operator.toJson, c.value.nested_toJson]

theorem Rule.nested_calculation (text : String) : (calculationToJson text).Nested 1 := by
  simp [calculationToJson, Json.Nested]

theorem Rule.nested_toJson (r : Rule) : r.toJson.Nested 4 := by
  have parts : ∀ c ∈ r.conditions, c.toJson.Nested 2 := fun c _ => c.nested_toJson
  rw [toJson, members]
  cases r.notes <;> simpa [Json.Nested, calculationToJson] using parts

/-! ## Writing and reading back -/

section
variable {F : Json.Format} (faithful : F.Faithful)
include faithful

theorem Json.Format.Faithful.decodes_items {α : Type} {toJson : α → Json}
    {ofJson? : Json → Option α} {values : List α}
    (nested : (Json.array (values.map toJson)).Nested Json.nestingLimit)
    (decodes : ∀ a ∈ values, F.Decodes ofJson? (toJson a) a) :
    ∃ items, F.back? (.array (values.map toJson)) = some (.array items) ∧
      items.mapM ofJson? = some values := by
  have read : ∃ items,
      List.Forall₂ (fun item j => F.back? item = some j) (values.map toJson) items ∧
      items.mapM ofJson? = some values := by
    clear nested
    induction values with
    | nil => exact ⟨[], .nil, rfl⟩
    | cons a values ih =>
      obtain ⟨j, back, value⟩ := Option.bind_eq_some_iff.mp (decodes a (by simp))
      obtain ⟨items, backs, rest⟩ := ih fun b mem => decodes b (List.mem_cons_of_mem _ mem)
      exact ⟨j :: items, .cons back backs, by simp [value, rest]⟩
  obtain ⟨items, backs, values⟩ := read
  exact ⟨items, faithful.array nested backs, values⟩

theorem Operator.decodes (op : Operator) : F.Decodes ofJson? op.toJson op := by
  rw [Json.Format.Decodes, toJson, faithful.text, Option.bind_some]
  exact ofJson?_toJson op

theorem Scalar.back?_toJson {s : Scalar} (kept : ∀ x ∈ s.floats, F.Keeps x) :
    F.back? s.toJson = some s.toJson := by
  cases s with
  | int n => exact faithful.int n
  | float x => exact faithful.float (kept x (by simp [floats]))
  | bool b => exact faithful.bool b
  | text s => exact faithful.text s

theorem Value.back?_toJson {v : Value} (kept : ∀ x ∈ v.floats, F.Keeps x) :
    F.back? v.toJson = some v.toJson := by
  cases v with
  | scalar s => exact Scalar.back?_toJson faithful kept
  | list items =>
    refine faithful.array ((Value.nested_toJson (.list items)).mono (by decide)) ?_
    refine List.forall₂_map_left_iff.mpr (List.forall₂_map_right_iff.mpr ?_)
    refine List.forall₂_same.mpr fun s mem => Scalar.back?_toJson faithful fun x own => ?_
    exact kept x (List.mem_flatMap.mpr ⟨s, mem, own⟩)

theorem Condition.decodes {c : Condition} (kept : ∀ x ∈ c.value.floats, F.Keeps x) :
    F.Decodes ofJson? c.toJson c := by
  have valueBack : F.back? c.value.toJson = some c.value.toJson := Value.back?_toJson faithful kept
  obtain ⟨order, perm, back⟩ := faithful.object (c.nested_toJson.mono (by decide)) (by simp)
    (.cons ⟨rfl, faithful.text c.field⟩ <| .cons ⟨rfl, faithful.text c.operator.jsonName⟩ <|
      .cons ⟨rfl, valueBack⟩ .nil)
  exact Option.bind_eq_some_iff.mpr ⟨_, back, ofJson?_members perm⟩

theorem Rule.back?_calculation (text : String) :
    F.back? (calculationToJson text) = some (calculationToJson text) := by
  have nested := (nested_calculation text).mono (by decide : 1 ≤ Json.nestingLimit)
  obtain ⟨order, perm, back⟩ := faithful.object nested (by simp)
    (.cons ⟨rfl, faithful.text text⟩ .nil)
  rwa [List.perm_singleton.mp perm] at back

theorem Rule.decodes {r : Rule} (kept : ∀ x ∈ r.floats, F.Keeps x) :
    F.Decodes ofJson? r.toJson r := by
  have conditionDecodes : ∀ c ∈ r.conditions, F.Decodes Condition.ofJson? c.toJson c := by
    intro c mem
    exact c.decodes faithful fun x own => kept x (List.mem_flatMap.mpr ⟨c, mem, own⟩)
  have nested : (Json.array (r.conditions.map Condition.toJson)).Nested 3 :=
    List.forall_mem_map.mpr fun c _ => c.nested_toJson
  obtain ⟨items, itemsBack, conditions⟩ :=
    faithful.decodes_items (nested.mono (by decide)) conditionDecodes
  have partsBack : List.Forall₂ (fun m j => m.1 = j.1 ∧ F.back? m.2 = some j.2)
      (r.members (r.conditions.map Condition.toJson)) (r.members items) := by
    refine .cons ⟨rfl, faithful.text _⟩ <| .cons ⟨rfl, faithful.int _⟩ <|
      .cons ⟨rfl, itemsBack⟩ <| .cons ⟨rfl, back?_calculation faithful _⟩ ?_
    cases r.notes with
    | none => exact .nil
    | some text => exact .cons ⟨rfl, faithful.text text⟩ .nil
  obtain ⟨order, perm, back⟩ := faithful.object (r.nested_toJson.mono (by decide))
    (nodup_members r _) partsBack
  exact Option.bind_eq_some_iff.mpr ⟨_, back, ofJson?_members perm conditions⟩

theorem Context.decodes {ctx : Context} {entries : List (String × Value)}
    (perm : entries.Perm ctx.entries) (kept : ∀ x ∈ Context.floats ctx, F.Keeps x) :
    F.Decodes Json.toContext? (.ofEntries entries) ctx := by
  have nested : (Json.ofEntries entries).Nested 2 :=
    List.forall_mem_map.mpr fun entry _ => entry.2.nested_toJson
  have distinct : ctx.entries.Pairwise fun a b => a.1 ≠ b.1 :=
    ctx.sorted.imp fun lt => String.ne_of_lt lt
  have apart : ((entries.map Json.ofEntry).map Prod.fst).Nodup := by
    simpa [List.Nodup, List.pairwise_map, Json.ofEntry] using perm.symm.pairwise distinct Ne.symm
  have valueBack : ∀ entry ∈ entries, F.back? entry.2.toJson = some entry.2.toJson := by
    intro entry mem
    refine Value.back?_toJson faithful fun x own => kept x ?_
    exact List.mem_flatMap.mpr ⟨entry, perm.subset mem, own⟩
  obtain ⟨order, orderPerm, back⟩ := faithful.object (nested.mono (by decide)) apart
    (List.forall₂_map_left_iff.mpr (List.forall₂_map_right_iff.mpr
      (List.forall₂_same.mpr fun entry mem => ⟨rfl, valueBack entry mem⟩)))
  -- the members come back as the entries in some other order
  have arranged : Relation.Comp (· = List.map Json.ofEntry ·) List.Perm order entries := by
    rw [List.eq_map_comp_perm]
    exact orderPerm
  obtain ⟨others, rfl, othersPerm⟩ := arranged
  exact Option.bind_eq_some_iff.mpr ⟨_, back, toContext?_members (othersPerm.trans perm)⟩

end

/-- Whatever the format, rules, contexts and their parts are read back from the JSON that is written
    for them if it keeps their floats. -/
theorem json_round_trip {F : Json.Format} (faithful : F.Faithful) :
    (∀ op : Operator, F.Decodes Operator.ofJson? op.toJson op) ∧
    (∀ s : Scalar, (∀ x ∈ s.floats, F.Keeps x) → F.Decodes Scalar.ofJson? s.toJson s) ∧
    (∀ v : Value, (∀ x ∈ v.floats, F.Keeps x) → F.Decodes Value.ofJson? v.toJson v) ∧
    (∀ c : Condition, (∀ x ∈ c.value.floats, F.Keeps x) →
      F.Decodes Condition.ofJson? c.toJson c) ∧
    (∀ r : Rule, (∀ x ∈ r.floats, F.Keeps x) → F.Decodes Rule.ofJson? r.toJson r) ∧
    (∀ (ctx : Context) (entries : List (String × Value)), entries.Perm ctx.entries →
      (∀ x ∈ Context.floats ctx, F.Keeps x) →
      F.Decodes Json.toContext? (.ofEntries entries) ctx) := by
  refine ⟨fun op => op.decodes faithful, fun s kept => ?_, fun v kept => ?_,
    fun c kept => c.decodes faithful kept, fun r kept => r.decodes faithful kept,
    fun ctx entries perm kept => Context.decodes faithful perm kept⟩
  · exact Option.bind_eq_some_iff.mpr
      ⟨_, Scalar.back?_toJson faithful kept, s.ofJson?_toJson⟩
  · exact Option.bind_eq_some_iff.mpr ⟨_, Value.back?_toJson faithful kept, v.ofJson?_toJson⟩

/-- A rule without notes whose list has a whole float beside the same integer. -/
def wholeRates : Rule where
  name := "Whole rates"
  priority := -2
  conditions :=
    [⟨"rate", .isIn, .list [.float (.ofInt 3), .int 3, .text "\x01 \"3\"\n", .bool false]⟩]
  calculation := "rate * 0.5"
  notes := none

theorem json_round_trip_wholeRates :
    (Json.Format.compact.Faithful ∧ (∀ x ∈ wholeRates.floats, Json.Format.compact.Keeps x) ∧
      Json.Format.compact.write wholeRates.toJson =
        "\x7b\"name\":\"Whole rates\",\"priority\":-2,\"conditions\":[" ++
          "\x7b\"field\":\"rate\",\"operator\":\"in\"," ++
          "\"value\":[3.0,3,\"\\u0001 \\\"3\\\"\\n\",false]\x7d]," ++
          "\"calculation\":\x7b\"expression\":\"rate * 0.5\"\x7d\x7d" ∧
      Json.Format.compact.Decodes Rule.ofJson? wholeRates.toJson wholeRates) ∧
    (Json.Format.compact.sorted.Faithful ∧
      (∀ x ∈ wholeRates.floats, Json.Format.compact.sorted.Keeps x) ∧
      Json.Format.compact.sorted.write wholeRates.toJson =
        "\x7b\"calculation\":\x7b\"expression\":\"rate * 0.5\"\x7d,\"conditions\":[" ++
          "\x7b\"field\":\"rate\",\"operator\":\"in\"," ++
          "\"value\":[3.0,3,\"\\u0001 \\\"3\\\"\\n\",false]\x7d]," ++
          "\"name\":\"Whole rates\",\"priority\":-2\x7d" ∧
      Json.Format.compact.sorted.Decodes Rule.ofJson? wholeRates.toJson wholeRates) := by
  have finite : ∀ x ∈ wholeRates.floats, x.isFinite := by decide +kernel
  have faithful := Json.Format.compact_faithful
  have kept : ∀ x ∈ wholeRates.floats, Json.Format.compact.Keeps x :=
    fun x mem => Json.Format.compact_keeps (finite x mem)
  have kept' : ∀ x ∈ wholeRates.floats, Json.Format.compact.sorted.Keeps x :=
    fun x mem => (kept x mem).sorted
  constructor
  · exact ⟨faithful, kept, by decide +kernel,
      (json_round_trip faithful).2.2.2.2.1 wholeRates kept⟩
  · exact ⟨faithful.sorted, kept', by decide +kernel,
      (json_round_trip faithful.sorted).2.2.2.2.1 wholeRates kept'⟩

end Commission
