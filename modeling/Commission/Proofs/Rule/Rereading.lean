import Commission.Proofs.Number.Order
import Commission.Proofs.Rule.RoundTrip

/-!
Which rules a service reads again from their own text. A number literal may be too large to be
finite; its rule is accepted, but the text of the rule shows the word `inf`, which is read as another
value or not at all. Main statement: `reread_iff_finite`.
-/
namespace Commission

/-! ## Likeness -/

theorem Scalar.alike_self {s : Scalar} (finite : s.isFinite) : s.alike s := by
  cases s with
  | float x =>
    have number : x.isNaN = false := by
      cases x with
      | finite negative m => rfl
      | infinite negative => rfl
      | nan => contradiction
    exact Binary64.eq_self_iff.mpr number
  | _ => simp [alike]

theorem all_zip_self {α : Type} (same : α → α → Bool) {xs : List α} (each : ∀ x ∈ xs, same x x) :
    (xs.zip xs).all fun (a, b) => same a b := by
  have pairs : xs.zip xs = xs.map fun x => (x, x) := List.zipWith_self
  rw [pairs, List.all_map]
  exact List.all_eq_true.mpr each

theorem Value.alike_self {v : Value} (finite : v.isFinite) : v.alike v := by
  cases v with
  | scalar s => exact s.alike_self finite
  | list items =>
    have each := List.all_eq_true.mp finite
    simpa [alike] using all_zip_self Scalar.alike fun s mem => s.alike_self (each s mem)

theorem Rule.alike_self {r : Rule} (finite : r.isFinite) : r.alike r := by
  have each := List.all_eq_true.mp finite
  have conditions : ∀ c ∈ r.conditions, c.alike c := by
    intro c mem
    simp [Condition.alike, Value.alike_self (each c mem)]
  simpa [alike] using all_zip_self Condition.alike conditions

/-! ## What comes back alike is finite -/

theorem Scalar.isFinite_of_alike {s echo : Scalar} (read : s.echo? = some echo)
    (alike : echo.alike s) : s.isFinite := by
  cases s with
  | float x =>
    cases x with
    | finite negative m => rfl
    | infinite negative =>
      cases negative with
      | true => simp [echo?] at read
      | false =>
        obtain rfl : Scalar.text "inf" = echo := by simpa [echo?] using read
        contradiction
    | nan =>
      obtain rfl : Scalar.text "NaN" = echo := by simpa [echo?] using read
      contradiction
  | _ => rfl

theorem all_of_mapM {α : Type} {echo? : α → Option α} {alike : α → α → Bool} {p : α → Bool}
    (each : ∀ x y, echo? x = some y → alike y x → p x) {xs ys : List α}
    (read : xs.mapM echo? = some ys) (same : (ys.zip xs).all fun (a, b) => alike a b) :
    xs.all p := by
  induction xs generalizing ys with
  | nil => rfl
  | cons x xs ih =>
    simp only [List.mapM_cons, Option.bind_eq_bind, Option.bind_eq_some_iff] at read
    obtain ⟨y, first, zs, later, rest⟩ := read
    obtain rfl := Option.some.inj rest
    simp only [List.zip_cons_cons, List.all_cons, Bool.and_eq_true] at same ⊢
    exact ⟨each x y first same.1, ih later same.2⟩

theorem Value.isFinite_of_alike {v echo : Value} (read : v.echo? = some echo)
    (alike : echo.alike v) : v.isFinite := by
  cases v with
  | scalar s =>
    obtain ⟨e, found, rfl⟩ := Option.map_eq_some_iff.mp read
    exact s.isFinite_of_alike found alike
  | list items =>
    obtain ⟨es, found, rfl⟩ := Option.map_eq_some_iff.mp read
    simp only [Value.alike, Bool.and_eq_true] at alike
    exact all_of_mapM (fun s e => Scalar.isFinite_of_alike) found alike.2

theorem Condition.isFinite_of_alike {c echo : Condition} (read : c.echo? = some echo)
    (alike : echo.alike c) : c.value.isFinite := by
  obtain ⟨e, found, rfl⟩ := Option.map_eq_some_iff.mp read
  simp only [Condition.alike, Bool.and_eq_true] at alike
  exact c.value.isFinite_of_alike found alike.2

theorem Rule.isFinite_of_alike {r echo : Rule} (read : r.echo? = some echo)
    (alike : echo.alike r) : r.isFinite := by
  obtain ⟨es, found, rfl⟩ := Option.map_eq_some_iff.mp read
  simp only [Rule.alike, Bool.and_eq_true] at alike
  exact all_of_mapM (fun c e => Condition.isFinite_of_alike) found alike.2

/-! ## Services -/

theorem Service.parse_eq_ok_iff (s : Service) (text : String) (r : Rule) :
    s.parse text = .ok r ↔ Rule.parse s.policy text = .ok r ∧ s.validate r = .ok () := by
  rw [parse]
  cases Rule.parse s.policy text with
  | error e => simp
  | ok q =>
    simp only [checked]
    cases valid : s.validate q with
    | error e =>
      constructor
      · intro h
        contradiction
      · rintro ⟨same, valid'⟩
        obtain rfl := Except.ok.inj same
        rw [valid] at valid'
        contradiction
    | ok u =>
      constructor
      · intro same
        obtain rfl := Except.ok.inj same
        exact ⟨rfl, valid⟩
      · rintro ⟨same, -⟩
        obtain rfl := Except.ok.inj same
        rfl

theorem finite_of_reread {s : Service} {r again : Rule} (written : r.Written)
    (reread : s.parse r.render = .ok again) (alike : again.alike r) : r.isFinite := by
  have echo := parse_render s.policy written
  rw [((s.parse_eq_ok_iff _ again).mp reread).1] at echo
  exact Rule.isFinite_of_alike echo.symm alike

def oversizedText : List Char :=
  "Bulk (1)\nWhen\n    quota > 1".toList ++ List.replicate 309 '0' ++ ".0\nThen\n    1".toList

def oversized : Rule :=
  ⟨"Bulk", 1, [⟨"quota", .gt, .scalar (.float (.infinite false))⟩], "1", none⟩

theorem oversized_read : Service.parse {} (String.ofList oversizedText) = .ok oversized := by
  refine (Service.parse_eq_ok_iff {} _ oversized).mpr ⟨?_, ?_⟩
  · apply toOption_eq_some_iff.mp
    rw [Rule.parse, String.toList_ofList]
    decide +kernel
  · apply toOption_eq_some_iff.mp
    decide +kernel

/-- A rule that a service has read is read again from its own text, as a rule alike, exactly if all
    its numbers are finite. -/
theorem reread_iff_finite (s : Service) (text : String) {r : Rule} (read : s.parse text = .ok r) :
    (∃ again, s.parse r.render = .ok again ∧ again.alike r) ↔ r.isFinite := by
  obtain ⟨parsed, valid⟩ := (s.parse_eq_ok_iff text r).mp read
  have written := written_of_parse parsed
  constructor
  · rintro ⟨again, reread, alike⟩
    exact finite_of_reread written reread alike
  · intro finite
    have echo := parse_render s.policy written
    rw [Rule.echo?_of_isFinite finite, toOption_eq_some_iff] at echo
    exact ⟨r, (s.parse_eq_ok_iff _ r).mpr ⟨echo, valid⟩, Rule.alike_self finite⟩

theorem reread_iff_finite_oversized :
    Service.parse {} (String.ofList oversizedText) = .ok oversized ∧
      ((∃ again, Service.parse {} oversized.render = .ok again ∧ again.alike oversized) ↔
        oversized.isFinite) :=
  ⟨oversized_read, reread_iff_finite {} _ oversized_read⟩

theorem oversized_not_reread :
    ¬ ∀ (s : Service) (text : String) (r : Rule), s.parse text = .ok r →
      ∃ again, s.parse r.render = .ok again ∧ again.alike r := by
  intro survives
  obtain ⟨again, reread, alike⟩ := survives {} _ oversized oversized_read
  have written := written_of_parse ((Service.parse_eq_ok_iff {} _ _).mp oversized_read).1
  have finite := finite_of_reread written reread alike
  have infinite : oversized.isFinite = false := rfl
  simp [infinite] at finite

end Commission
