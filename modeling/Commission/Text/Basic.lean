/-!
Characters of rule text: which are blank, what trimming removes, how many bytes a text takes.
Texts are lists of characters while they are read, so that a reader is a function on the rest.
-/
namespace Commission.Text

/-- The characters with the White_Space property. -/
def isBlank (c : Char) : Bool :=
  let n := c.toNat
  (9 ≤ n && n ≤ 13) || n == 0x20 || n == 0x85 || n == 0xA0 || n == 0x1680 ||
    (0x2000 ≤ n && n ≤ 0x200A) || n == 0x2028 || n == 0x2029 || n == 0x202F ||
    n == 0x205F || n == 0x3000

def isGap (c : Char) : Bool := c == ' ' || c == '\t'

def skipGaps (cs : List Char) : List Char := cs.dropWhile isGap

def trimStart (cs : List Char) : List Char := cs.dropWhile isBlank

def trimEnd (cs : List Char) : List Char := (cs.reverse.dropWhile isBlank).reverse

def trim (cs : List Char) : List Char := trimStart (trimEnd cs)

def isBlankLine (cs : List Char) : Bool := cs.all isBlank

-- The empty sum is the literal zero, also where a file sees the rings of Mathlib.
attribute [local instance (2000)] Zero.ofOfNat0

/-- Length in UTF-8. -/
def byteCount (cs : List Char) : Nat := (cs.map Char.utf8Size).sum

theorem isBlank_of_isGap {c : Char} (h : isGap c) : isBlank c := by
  simp only [isGap, Bool.or_eq_true, beq_iff_eq] at h
  rcases h with rfl | rfl <;> decide

theorem byteCount_append (a b : List Char) : byteCount (a ++ b) = byteCount a + byteCount b := by
  simp [byteCount]

theorem length_le_byteCount (cs : List Char) : cs.length ≤ byteCount cs := by
  induction cs with
  | nil => simp [byteCount]
  | cons c cs ih =>
    have := c.utf8Size_pos
    simp only [byteCount, List.map_cons, List.sum_cons, List.length_cons] at ih ⊢
    omega

end Commission.Text
