import Commission.Text.Basic
import Commission.Text.Identifier

/-!
What scanning makes of a text whose parts are known: the longest run of one kind of character, an
identifier, and what trimming leaves. `trim_split` says that trimming takes blanks off both ends
and nothing else.
-/
namespace Commission.Text

theorem takeWhile_append_stop {α : Type} {p : α → Bool} {xs ys : List α} (all : ∀ x ∈ xs, p x)
    (stop : ∀ y ∈ ys.head?, p y = false) : (xs ++ ys).takeWhile p = xs := by
  rw [List.takeWhile_append_of_pos all]
  cases ys with
  | nil => simp
  | cons y ys =>
    have := stop y (by simp)
    simp [this]

theorem dropWhile_append_stop {α : Type} {p : α → Bool} {xs ys : List α} (all : ∀ x ∈ xs, p x)
    (stop : ∀ y ∈ ys.head?, p y = false) : (xs ++ ys).dropWhile p = ys := by
  rw [List.dropWhile_append_of_pos all]
  cases ys with
  | nil => simp
  | cons y ys =>
    have := stop y (by simp)
    simp [this]

/-- A text splits in one way into a run of one kind of character and what stops the run. -/
theorem run_unique {α : Type} {p : α → Bool} {xs ys xs' ys' : List α} (all : ∀ x ∈ xs, p x)
    (stop : ∀ y ∈ ys.head?, p y = false) (all' : ∀ x ∈ xs', p x)
    (stop' : ∀ y ∈ ys'.head?, p y = false) (same : xs ++ ys = xs' ++ ys') :
    xs = xs' ∧ ys = ys' := by
  constructor
  · rw [← takeWhile_append_stop all stop, same, takeWhile_append_stop all' stop']
  · rw [← dropWhile_append_stop all stop, same, dropWhile_append_stop all' stop']

theorem mem_takeWhile {α : Type} {p : α → Bool} {xs : List α} {x : α} (mem : x ∈ xs.takeWhile p) :
    p x := by
  have all : (xs.takeWhile p).all p = true := List.all_takeWhile
  exact List.all_eq_true.mp all x mem

theorem dropWhile_head {α : Type} {p : α → Bool} (xs : List α) :
    ∀ x ∈ (xs.dropWhile p).head?, p x = false := by
  intro x mem
  have := List.head?_dropWhile_not p xs
  rw [Option.mem_def] at mem
  simpa [mem] using this

theorem dropWhile_of_head {α : Type} {p : α → Bool} {xs : List α}
    (stop : ∀ x ∈ xs.head?, p x = false) : xs.dropWhile p = xs := by
  cases xs with
  | nil => rfl
  | cons x xs => simp [stop x (by simp)]

theorem stop_cons {α : Type} {p : α → Bool} {x : α} (other : p x = false) (xs : List α) :
    ∀ y ∈ (x :: xs).head?, p y = false := by
  intro y mem
  obtain rfl : x = y := by simpa using mem
  exact other

theorem getLast?_append_filled {α : Type} (xs : List α) {ys : List α} (filled : ys ≠ []) :
    (xs ++ ys).getLast? = ys.getLast? := by
  rw [List.getLast?_append]
  cases last : ys.getLast? with
  | none => exact absurd (List.getLast?_eq_none_iff.mp last) filled
  | some y => rfl

theorem isGap_iff (c : Char) : isGap c ↔ c = ' ' ∨ c = '\t' := by
  simp [isGap]

theorem isAlpha_iff (c : Char) :
    c.isAlpha ↔ (65 ≤ c.toNat ∧ c.toNat ≤ 90) ∨ (97 ≤ c.toNat ∧ c.toNat ≤ 122) := by
  have letter : c.isAlpha =
      (decide (c.val ≥ 'A'.val ∧ c.val ≤ 'Z'.val) || (c.val ≥ 'a'.val && c.val ≤ 'z'.val)) := rfl
  simp [letter, UInt32.le_iff_toNat_le]

theorem isDigit_iff (c : Char) : c.isDigit ↔ 48 ≤ c.toNat ∧ c.toNat ≤ 57 := by
  simp [Char.isDigit, UInt32.le_iff_toNat_le]

/-! ## Names -/

namespace Identifier

theorem read?_append {name rest : List Char} (named : isIdentifier name)
    (stop : ∀ c ∈ rest.head?, isPart c = false) : read? (name ++ rest) = some (name, rest) := by
  cases name with
  | nil => simp [isIdentifier] at named
  | cons c cs =>
    simp only [isIdentifier, Bool.and_eq_true, List.all_eq_true] at named
    simp [read?, named.1, takeWhile_append_stop named.2 stop, dropWhile_append_stop named.2 stop]

theorem head_of_isIdentifier {name : List Char} (named : isIdentifier name) :
    ∃ c rest, name = c :: rest ∧ isStart c := by
  cases name with
  | nil => simp [isIdentifier] at named
  | cons c cs =>
    simp only [isIdentifier, Bool.and_eq_true] at named
    exact ⟨c, cs, rfl, named.1⟩

theorem ne_of_isStart {c d : Char} (start : isStart c)
    (other : isStart d = false) : c ≠ d := by
  rintro rfl
  rw [start] at other
  contradiction

theorem isDigit_of_isStart {c : Char} (start : isStart c) : c.isDigit = false := by
  simp only [isStart, Bool.or_eq_true, beq_iff_eq] at start
  rcases start with letter | rfl
  · rw [isAlpha_iff] at letter
    rw [← Bool.not_eq_true, isDigit_iff]
    omega
  · decide

theorem isPart_of_isStart {c : Char} (start : isStart c) : isPart c := by
  simp only [isStart, isPart, Char.isAlphanum, Bool.or_eq_true] at start ⊢
  rcases start with letter | underscore
  · exact .inl (.inl letter)
  · exact .inr underscore

theorem isPart_of_mem {name : List Char} (named : isIdentifier name) : ∀ c ∈ name, isPart c := by
  cases name with
  | nil => simp
  | cons c cs =>
    simp only [isIdentifier, Bool.and_eq_true, List.all_eq_true] at named
    intro d mem
    rcases List.mem_cons.mp mem with rfl | mem
    · exact isPart_of_isStart named.1
    · exact named.2 d mem

end Identifier

theorem isBlank_of_isAlphanum {c : Char} (solid : c.isAlphanum) : isBlank c = false := by
  rw [Char.isAlphanum, Bool.or_eq_true, isAlpha_iff, isDigit_iff] at solid
  simp only [isBlank, Bool.or_eq_false_iff, Bool.and_eq_false_imp, decide_eq_true_eq,
    decide_eq_false_iff_not, beq_eq_false_iff_ne]
  omega

theorem isBlank_of_isStart {c : Char} (start : Identifier.isStart c) :
    isBlank c = false := by
  simp only [Identifier.isStart, Bool.or_eq_true, beq_iff_eq] at start
  rcases start with letter | rfl
  · exact isBlank_of_isAlphanum (by simp [Char.isAlphanum, letter])
  · decide

/-! ## Trimming -/

def Tight (cs : List Char) : Prop :=
  (∀ c ∈ cs.head?, isBlank c = false) ∧ ∀ c ∈ cs.getLast?, isBlank c = false

theorem trimEnd_of_last {cs : List Char} (last : ∀ c ∈ cs.getLast?, isBlank c = false) :
    trimEnd cs = cs := by
  rw [trimEnd, dropWhile_of_head (by simpa using last), List.reverse_reverse]

theorem trimEnd_append_blank (cs : List Char) {blanks : List Char}
    (blank : ∀ c ∈ blanks, isBlank c) : trimEnd (cs ++ blanks) = trimEnd cs := by
  rw [trimEnd, List.reverse_append, List.dropWhile_append_of_pos (by simpa using blank), trimEnd]

theorem trimEnd_last (cs : List Char) : ∀ c ∈ (trimEnd cs).getLast?, isBlank c = false := by
  rw [trimEnd, List.getLast?_reverse]
  exact dropWhile_head _

theorem trimStart_last {cs : List Char} (last : ∀ c ∈ cs.getLast?, isBlank c = false) :
    ∀ c ∈ (trimStart cs).getLast?, isBlank c = false := by
  intro c mem
  apply last
  rw [← List.takeWhile_append_dropWhile (p := isBlank) (l := cs), List.getLast?_append]
  rw [Option.mem_def] at mem ⊢
  simp [show (cs.dropWhile isBlank).getLast? = some c from mem]

theorem tight_trim (cs : List Char) : Tight (trim cs) :=
  ⟨dropWhile_head _, trimStart_last (trimEnd_last cs)⟩

theorem trim_of_tight {cs : List Char} (tight : Tight cs) : trim cs = cs := by
  rw [trim, trimEnd_of_last tight.2, trimStart, dropWhile_of_head tight.1]

theorem trim_eq_self_iff (cs : List Char) : trim cs = cs ↔ Tight cs := by
  constructor
  · intro same
    rw [← same]
    exact tight_trim cs
  · exact trim_of_tight

theorem trim_trim (cs : List Char) : trim (trim cs) = trim cs :=
  trim_of_tight (tight_trim cs)

theorem trimEnd_split (cs : List Char) :
    ∃ after, cs = trimEnd cs ++ after ∧ ∀ c ∈ after, isBlank c := by
  refine ⟨(cs.reverse.takeWhile isBlank).reverse, ?_, ?_⟩
  · rw [trimEnd, ← List.reverse_append, List.takeWhile_append_dropWhile, List.reverse_reverse]
  · intro c mem
    exact mem_takeWhile (List.mem_reverse.mp mem)

theorem trim_split (cs : List Char) :
    ∃ before after, cs = before ++ (trim cs ++ after) ∧
      (∀ c ∈ before, isBlank c) ∧ ∀ c ∈ after, isBlank c := by
  obtain ⟨after, split, blank⟩ := trimEnd_split cs
  refine ⟨(trimEnd cs).takeWhile isBlank, after, ?_, fun c mem => mem_takeWhile mem, blank⟩
  rw [trim, trimStart, ← List.append_assoc, List.takeWhile_append_dropWhile]
  exact split

theorem trim_indent {before cs : List Char} (blank : ∀ c ∈ before, isBlank c) (filled : cs ≠ [])
    (tight : Tight cs) : trim (before ++ cs) = cs := by
  have last : ∀ c ∈ (before ++ cs).getLast?, isBlank c = false := by
    rw [getLast?_append_filled before filled]
    exact tight.2
  rw [trim, trimEnd_of_last last, trimStart, dropWhile_append_stop blank tight.1]

theorem isBlankLine_of_tight {cs : List Char} (filled : cs ≠ []) (tight : Tight cs) :
    isBlankLine cs = false := by
  cases cs with
  | nil => contradiction
  | cons c cs =>
    have solid := tight.1 c (by simp)
    simp [isBlankLine, solid]

theorem trim_ne_nil {cs : List Char} (solid : isBlankLine cs = false) : trim cs ≠ [] := by
  intro empty
  obtain ⟨before, after, split, blank, blank'⟩ := trim_split cs
  rw [empty, List.nil_append] at split
  have all : isBlankLine cs = true := by
    rw [split, isBlankLine, List.all_append, List.all_eq_true.mpr blank,
      List.all_eq_true.mpr blank']
    rfl
  rw [solid] at all
  contradiction

theorem mem_of_mem_trim {c : Char} {cs : List Char} (mem : c ∈ trim cs) : c ∈ cs := by
  obtain ⟨before, after, split, -, -⟩ := trim_split cs
  rw [split]
  simp [mem]

end Commission.Text
