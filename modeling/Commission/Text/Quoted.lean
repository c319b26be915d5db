/-!
Double-quoted text. A backslash gives a quote, a backslash, a line feed or a tab when a fitting
letter follows, and otherwise stays with the letter. Main statement: `read?_encode`, what is
written between quotes is read back.
-/
namespace Commission.Text.Quoted

def escape : Char → List Char
  | '"' => ['\\', '"']
  | '\\' => ['\\', '\\']
  | '\n' => ['\\', 'n']
  | '\t' => ['\\', 't']
  | c => [c]

def encode (cs : List Char) : List Char := cs.flatMap escape

def unescape : Char → List Char
  | '"' => ['"']
  | '\\' => ['\\']
  | 'n' => ['\n']
  | 't' => ['\t']
  | c => ['\\', c]

/-- Reads up to the closing quote; the opening one is gone already. -/
def read? : List Char → Option (List Char × List Char)
  | [] => none
  | '"' :: cs => some ([], cs)
  | ['\\'] => none
  | '\\' :: c :: cs => (read? cs).map fun (content, rest) => (unescape c ++ content, rest)
  | c :: cs => (read? cs).map fun (content, rest) => (c :: content, rest)

theorem read?_escape (c : Char) (cs : List Char) :
    read? (escape c ++ cs) = (read? cs).map fun (content, rest) => (c :: content, rest) := by
  unfold escape
  split <;> simp_all [read?, unescape]

theorem read?_encode (cs rest : List Char) :
    read? (encode cs ++ '"' :: rest) = some (cs, rest) := by
  induction cs with
  | nil => simp [encode, read?]
  | cons c cs ih =>
    have step := read?_escape c (encode cs ++ '"' :: rest)
    rw [ih] at step
    simpa [encode] using step

end Commission.Text.Quoted
