import Commission.Rule.Validation

/-!
What the count of parentheses decides. A text nests within a limit if no part from its start closes
more parentheses than it opens or leaves more than the limit open, and the whole leaves none open.
Main statement: `nesting?_le_iff`.
-/
namespace Commission.Rule

def excess (cs : List Char) : Int := cs.count '(' - cs.count ')'

/-- The text goes on where `depth` parentheses are open: from there to its end at least none and at
    most `limit` are open, and in the end none. -/
structure NestsFrom (depth : Int) (limit : Nat) (cs : List Char) : Prop where
  within : ∀ before, before <+: cs → 0 ≤ depth + excess before ∧ depth + excess before ≤ limit
  closed : depth + excess cs = 0

structure Nests (limit : Nat) (cs : List Char) : Prop where
  within : ∀ before, before <+: cs → 0 ≤ excess before ∧ excess before ≤ limit
  closed : excess cs = 0

theorem excess_cons (c : Char) (cs : List Char) : excess (c :: cs) = excess [c] + excess cs := by
  simp only [excess, List.count_cons, List.count_nil]
  omega

theorem excess_other {c : Char} (other : c ≠ '(' ∧ c ≠ ')') : excess [c] = 0 := by
  simp [excess, other.1, other.2]

theorem NestsFrom.start {depth : Int} {limit : Nat} {cs : List Char}
    (nests : NestsFrom depth limit cs) : 0 ≤ depth ∧ depth ≤ limit := by
  have nothing : excess [] = 0 := rfl
  have bounds := nests.within [] List.nil_prefix
  omega

theorem nestsFrom_nil (depth : Int) (limit : Nat) : NestsFrom depth limit [] ↔ depth = 0 := by
  have nothing : excess [] = 0 := rfl
  constructor
  · intro nests
    have := nests.closed
    omega
  · intro none
    refine ⟨fun before start => ?_, by omega⟩
    obtain rfl := List.prefix_nil.mp start
    omega

theorem nestsFrom_cons (depth : Int) (limit : Nat) (c : Char) (cs : List Char) :
    NestsFrom depth limit (c :: cs) ↔
      (0 ≤ depth ∧ depth ≤ limit) ∧ NestsFrom (depth + excess [c]) limit cs := by
  have step := excess_cons c
  constructor
  · intro nests
    refine ⟨nests.start, fun before start => ?_, ?_⟩
    · have bounds := nests.within (c :: before) ((List.prefix_cons_inj c).mpr start)
      have := step before
      omega
    · have := nests.closed
      have := step cs
      omega
  · rintro ⟨here, nests⟩
    refine ⟨fun before start => ?_, ?_⟩
    · rcases List.prefix_cons_iff.mp start with rfl | ⟨tail, rfl, later⟩
      · have nothing : excess [] = 0 := rfl
        omega
      · have bounds := nests.within tail later
        have := step tail
        omega
    · have := nests.closed
      have := step cs
      omega

/-- Counting on with `depth` parentheses open gives a depth within the limit exactly if the text
    nests so from there. -/
theorem nesting?_within_iff (limit : Nat) (cs : List Char) {depth deepest : Nat}
    (reached : depth ≤ deepest) :
    (∃ d, nesting? depth deepest cs = some d ∧ d ≤ limit) ↔
      deepest ≤ limit ∧ NestsFrom depth limit cs := by
  induction cs generalizing depth deepest with
  | nil =>
    rw [nestsFrom_nil, nesting?]
    split
    · simp only [Option.some.injEq, exists_eq_left']
      omega
    · simp only [reduceCtorEq, false_and, exists_false, false_iff]
      omega
  | cons c cs ih =>
    rw [nestsFrom_cons]
    by_cases opens : c = '('
    · subst opens
      have deeper : (depth : Int) + excess ['('] = (depth + 1 : Nat) := rfl
      rw [nesting?, ih (Nat.le_max_right deepest (depth + 1)), deeper]
      constructor
      · rintro ⟨bound, nests⟩
        exact ⟨by omega, by omega, nests⟩
      · rintro ⟨bound, -, nests⟩
        have := nests.start
        exact ⟨by omega, nests⟩
    · by_cases closes : c = ')'
      · subst closes
        have higher : excess [')'] = -1 := rfl
        rw [nesting?, higher]
        by_cases none : depth = 0
        · simp only [none, if_true, reduceCtorEq, false_and, exists_false, false_iff]
          rintro ⟨-, -, nests⟩
          have := nests.start
          omega
        · have same : (depth : Int) + -1 = (depth - 1 : Nat) := by omega
          rw [if_neg none, ih (by omega), same]
          constructor
          · rintro ⟨bound, nests⟩
            exact ⟨bound, by omega, nests⟩
          · rintro ⟨bound, -, nests⟩
            exact ⟨bound, nests⟩
      · rw [nesting?, ih reached, excess_other ⟨opens, closes⟩, Int.add_zero]
        · constructor
          · rintro ⟨bound, nests⟩
            exact ⟨bound, nests.start, nests⟩
          · rintro ⟨bound, -, nests⟩
            exact ⟨bound, nests⟩
        · exact opens
        · exact closes

theorem nesting?_le_iff (limit : Nat) (cs : List Char) :
    (∃ d, nesting? 0 0 cs = some d ∧ d ≤ limit) ↔ Nests limit cs := by
  rw [nesting?_within_iff limit cs (Nat.le_refl 0)]
  constructor
  · rintro ⟨-, within, closed⟩
    simp only [Int.natCast_zero, Int.zero_add] at within closed
    exact ⟨within, closed⟩
  · rintro ⟨within, closed⟩
    refine ⟨Nat.zero_le limit, ?_, ?_⟩
    · simpa using within
    · simpa using closed

/-! ## Balance and depth apart -/

/-- No part from the start closes more parentheses than it opens, and the whole closes all. -/
structure Balanced (cs : List Char) : Prop where
  within : ∀ before, before <+: cs → 0 ≤ excess before
  closed : excess cs = 0

def Shallow (limit : Nat) (cs : List Char) : Prop := ∀ before, before <+: cs → excess before ≤ limit

theorem nests_iff (limit : Nat) (cs : List Char) :
    Nests limit cs ↔ Balanced cs ∧ Shallow limit cs := by
  constructor
  · rintro ⟨within, closed⟩
    exact ⟨⟨fun before start => (within before start).1, closed⟩,
      fun before start => (within before start).2⟩
  · rintro ⟨⟨within, closed⟩, shallow⟩
    exact ⟨fun before start => ⟨within before start, shallow before start⟩, closed⟩

theorem shallow_length (cs : List Char) : Shallow cs.length cs := by
  intro before start
  have opened : before.count '(' ≤ before.length := List.count_le_length
  have shorter := start.length_le
  unfold excess
  omega

theorem nesting?_isSome_iff (cs : List Char) : (nesting? 0 0 cs).isSome ↔ Balanced cs := by
  rw [Option.isSome_iff_exists]
  constructor
  · rintro ⟨d, counted⟩
    exact ((nests_iff d cs).mp ((nesting?_le_iff d cs).mp ⟨d, counted, Nat.le_refl d⟩)).1
  · intro balanced
    have nests := (nests_iff cs.length cs).mpr ⟨balanced, shallow_length cs⟩
    obtain ⟨d, counted, -⟩ := (nesting?_le_iff cs.length cs).mpr nests
    exact ⟨d, counted⟩

theorem le_iff_shallow {cs : List Char} {d : Nat} (counted : nesting? 0 0 cs = some d)
    (limit : Nat) : d ≤ limit ↔ Shallow limit cs := by
  have balanced : Balanced cs := (nesting?_isSome_iff cs).mp (by simp [counted])
  have within : d ≤ limit ↔ Nests limit cs := by
    rw [← nesting?_le_iff, counted]
    simp
  rw [within, nests_iff]
  exact and_iff_right balanced

end Commission.Rule
