import Commission.Proofs.Expr.Completeness

/-!
A calculation is accepted exactly when it is in the grammar and within the limits on its length and
its nesting. The grammar is unambiguous: a text has one tree and one nesting.
-/
namespace Commission.Expr.Grammar

theorem calculation_settles {n : Nat} {text : List Char} {e : Expr}
    (calculation : Calculation 1 n text e) (levels : Nat) :
    ∃ blanks, Blank blanks ∧ Settles (n < levels) (sum (signed levels) text) e blanks := by
  obtain ⟨body, blanks, rfl, phrase, blank⟩ := calculation
  exact ⟨blanks, blank, chain_settles phrase levels blanks (follows_blank blank)⟩

theorem tree_unique {n m : Nat} {text : List Char} {e f : Expr}
    (first : Calculation 1 n text e) (second : Calculation 1 m text f) : e = f := by
  obtain ⟨_, _, settled⟩ := calculation_settles first (max n m + 1)
  obtain ⟨_, _, settled'⟩ := calculation_settles second (max n m + 1)
  have same := (settled.1 (by omega)).symm.trans (settled'.1 (by omega))
  exact (Reply.done.inj same).1

theorem nesting_le {n m : Nat} {text : List Char} {e f : Expr}
    (first : Calculation 1 n text e) (second : Calculation 1 m text f) : m ≤ n := by
  obtain ⟨_, _, settled⟩ := calculation_settles first (n + 1)
  obtain ⟨_, _, settled'⟩ := calculation_settles second (n + 1)
  apply Nat.le_of_lt_succ
  apply Decidable.byContradiction
  intro deep
  obtain ⟨wanted, stop, failed⟩ := settled'.2 deep
  rw [settled.1 (by omega)] at failed
  contradiction

theorem nesting_unique {n m : Nat} {text : List Char} {e f : Expr}
    (first : Calculation 1 n text e) (second : Calculation 1 m text f) : n = m :=
  Nat.le_antisymm (nesting_le second first) (nesting_le first second)

theorem parse_of_long {text : String} (long : maxCalculationBytes < Text.byteCount text.toList) :
    parse text = .error (.tooLong (Text.byteCount text.toList)) := by
  simp [parse, long]

theorem parse_of_short {text : String} (short : Text.byteCount text.toList ≤ maxCalculationBytes) :
    (∃ e, parse text = .ok e) ∨
      ∃ offset wanted, parse text = .error (.malformed offset wanted) := by
  have fits : ¬ maxCalculationBytes < Text.byteCount text.toList := by omega
  simp only [parse, fits, if_false]
  split
  · split
    · exact .inl ⟨_, rfl⟩
    · exact .inr ⟨_, _, rfl⟩
  · exact .inr ⟨_, _, rfl⟩
  · exact .inr ⟨_, _, rfl⟩

theorem calculation_of_parse {text : String} {e : Expr} (accepted : parse text = .ok e) :
    ∃ n, n ≤ maxNesting ∧ Calculation 1 n text.toList e := by
  simp only [parse] at accepted
  split at accepted
  · simp at accepted
  · split at accepted
    · next tree rest run =>
      split at accepted
      · next spent =>
        obtain rfl : tree = e := by simpa using accepted
        obtain ⟨blanks, blank, split⟩ := skipSpaces_split rest
        obtain ⟨n, body, shallow, same, phrase⟩ := sum_sound (signed_sound _) _ _ _ run
        refine ⟨n, by omega, body, rest, same, phrase, ?_⟩
        rw [split, spent, List.append_nil]
        exact blank
      · simp at accepted
    · simp at accepted
    · simp at accepted

theorem parse_of_calculation {n : Nat} {text : String} {e : Expr}
    (short : Text.byteCount text.toList ≤ maxCalculationBytes) (shallow : n ≤ maxNesting)
    (calculation : Calculation 1 n text.toList e) : parse text = .ok e := by
  have fits : ¬ maxCalculationBytes < Text.byteCount text.toList := by omega
  obtain ⟨blanks, blank, settled⟩ := calculation_settles calculation (maxNesting + 1)
  simp only [parse, fits, if_false, settled.1 (by omega), skipSpaces_blank blank]

theorem parse_eq_ok_iff (text : String) (e : Expr) :
    parse text = .ok e ↔ Text.byteCount text.toList ≤ maxCalculationBytes ∧
      ∃ n, n ≤ maxNesting ∧ Calculation 1 n text.toList e := by
  constructor
  · intro accepted
    refine ⟨?_, calculation_of_parse accepted⟩
    apply Decidable.byContradiction
    intro long
    rw [parse_of_long (by omega)] at accepted
    contradiction
  · rintro ⟨short, n, shallow, calculation⟩
    exact parse_of_calculation short shallow calculation

theorem parse_eq_tooLong_iff (text : String) (bytes : Nat) :
    parse text = .error (.tooLong bytes) ↔
      bytes = Text.byteCount text.toList ∧ maxCalculationBytes < bytes := by
  constructor
  · intro refused
    by_cases long : maxCalculationBytes < Text.byteCount text.toList
    · rw [parse_of_long long] at refused
      obtain rfl : Text.byteCount text.toList = bytes := by simpa using refused
      exact ⟨rfl, long⟩
    · have short : Text.byteCount text.toList ≤ maxCalculationBytes := by omega
      rcases parse_of_short short with ⟨e, eq⟩ | ⟨offset, wanted, eq⟩
      · simp [eq] at refused
      · simp [eq] at refused
  · rintro ⟨rfl, long⟩
    exact parse_of_long long

/-- The reader of calculations decides the grammar within its two limits, and builds its tree. -/
theorem parse_exact (text : String) :
    (∀ e, parse text = .ok e ↔ Text.byteCount text.toList ≤ maxCalculationBytes ∧
      ∃ n, n ≤ maxNesting ∧ Calculation 1 n text.toList e) ∧
    (∀ n m e f, Calculation 1 n text.toList e → Calculation 1 m text.toList f → n = m ∧ e = f) ∧
    (∀ bytes, parse text = .error (.tooLong bytes) ↔
      bytes = Text.byteCount text.toList ∧ maxCalculationBytes < bytes) ∧
    (Text.byteCount text.toList ≤ maxCalculationBytes →
      (¬ ∃ n e, n ≤ maxNesting ∧ Calculation 1 n text.toList e) →
      ∃ offset wanted, parse text = .error (.malformed offset wanted)) := by
  refine ⟨parse_eq_ok_iff text, ?_, parse_eq_tooLong_iff text, ?_⟩
  · intro n m e f first second
    exact ⟨nesting_unique first second, tree_unique first second⟩
  · intro short outside
    rcases parse_of_short short with ⟨e, accepted⟩ | refused
    · obtain ⟨n, shallow, calculation⟩ := calculation_of_parse accepted
      exact absurd ⟨n, e, shallow, calculation⟩ outside
    · exact refused

end Commission.Expr.Grammar
