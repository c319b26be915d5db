/-!
Identifiers: a letter or an underscore, then letters, digits and underscores, all ASCII.
`read?_eq_some` says that reading loses nothing and takes as much as it can.
-/
namespace Commission.Text.Identifier

def isStart (c : Char) : Bool := c.isAlpha || c == '_'

def isPart (c : Char) : Bool := c.isAlphanum || c == '_'

def isIdentifier : List Char → Bool
  | [] => false
  | c :: cs => isStart c && cs.all isPart

def read? : List Char → Option (List Char × List Char)
  | [] => none
  | c :: cs => if isStart c then some (c :: cs.takeWhile isPart, cs.dropWhile isPart) else none

theorem read?_eq_some {cs name rest : List Char} (h : read? cs = some (name, rest)) :
    cs = name ++ rest ∧ isIdentifier name ∧ ∀ c ∈ rest.head?, isPart c = false := by
  cases cs with
  | nil => simp [read?] at h
  | cons c cs =>
    simp only [read?] at h
    split at h
    · next start =>
      obtain ⟨rfl, rfl⟩ := by simpa using h
      refine ⟨by simp, by simp [isIdentifier, start], ?_⟩
      intro d hd
      have := List.head?_dropWhile_not isPart cs
      simp_all
    · simp at h

end Commission.Text.Identifier
