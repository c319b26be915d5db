import Commission.Proofs.Expr.Depth
import Commission.Proofs.Expr.Exactness

/-!
Calculations that are read have few nodes and few levels. Every node takes a token of its own, which
bounds the nodes by the bytes that are not blank. Chains of operators nest to the left without
opening a level, so the nodes on a path may be as many as the tokens; only those of signs and calls
are bounded by the nesting. Main statement: `small_of_parse`.
-/
namespace Commission

namespace Text

def solidBytes (cs : List Char) : Nat := byteCount (cs.filter fun c => !isBlank c)

theorem solidBytes_append (cs ds : List Char) :
    solidBytes (cs ++ ds) = solidBytes cs + solidBytes ds := by
  rw [solidBytes, List.filter_append, byteCount_append, solidBytes, solidBytes]

theorem solidBytes_cons {c : Char} (solid : isBlank c = false) (cs : List Char) :
    solidBytes cs + 1 ≤ solidBytes (c :: cs) := by
  have size := c.utf8Size_pos
  simp only [solidBytes, byteCount, List.filter_cons, solid, Bool.not_false, if_true, List.map_cons,
    List.sum_cons]
  omega

theorem solidBytes_pos {cs : List Char} (filled : ∃ c ∈ cs, isBlank c = false) :
    1 ≤ solidBytes cs := by
  obtain ⟨c, mem, solid⟩ := filled
  obtain ⟨before, after, rfl⟩ := List.append_of_mem mem
  have one := solidBytes_cons solid after
  rw [solidBytes_append]
  omega

theorem solidBytes_le (cs : List Char) : solidBytes cs ≤ byteCount cs := by
  induction cs with
  | nil => simp [solidBytes]
  | cons c cs ih =>
    simp only [solidBytes, byteCount, List.filter_cons] at ih ⊢
    split
    · simp only [List.map_cons, List.sum_cons]
      omega
    · simp only [List.map_cons, List.sum_cons]
      omega

end Text

namespace Expr

/-- The nodes that open a level. Groups do too, but they leave no node. -/
def opens : Expr → Bool
  | negate _ | call .. => true
  | number _ | var _ | binary .. => false

def Shallow (n : Nat) (e : Expr) : Prop := ∀ path, Path e path → path.countP opens ≤ n

theorem shallow_mono {n m : Nat} {e : Expr} (shallow : Shallow n e) (le : n ≤ m) : Shallow m e :=
  fun path h => Nat.le_trans (shallow path h) le

theorem shallow_of_parts {n m : Nat} {e : Expr} (below : ∀ part ∈ e.parts, Shallow n part)
    (room : n + (if e.opens then 1 else 0) ≤ m) : Shallow m e := by
  intro path h
  cases h with
  | stop =>
    rw [List.countP_singleton]
    omega
  | down mem inside =>
    have fewer := below _ mem _ inside
    rw [List.countP_cons]
    omega

theorem shallow_cons {n m : Nat} {e : Expr} {es : List Expr} (one : Shallow n e)
    (others : ∀ f ∈ es, Shallow m f) : ∀ f ∈ e :: es, Shallow (max n m) f := by
  intro f mem
  rcases List.mem_cons.mp mem with rfl | mem
  · exact shallow_mono one (Nat.le_max_left n m)
  · exact shallow_mono (others f mem) (Nat.le_max_right n m)

namespace Grammar
open Text

/-! ## Nodes and tokens -/

theorem nodes_grouped (first : Expr) (links : List (BinaryOp × Expr)) :
    (grouped first links).nodes.length =
      first.nodes.length + (links.length + (links.flatMap fun link => link.2.nodes).length) := by
  induction links generalizing first with
  | nil => rfl
  | cons link links ih =>
    have more := ih (binary link.1 first link.2)
    simp only [nodes, List.length_cons, List.length_append] at more
    rw [grouped, List.foldl_cons, ← grouped, more, List.length_cons, List.flatMap_cons,
      List.length_append]
    omega

theorem solid_symbol {strength : Strength} {c : Char} {op : BinaryOp}
    (symbol : strength.Symbol c op) : isBlank c = false := by
  cases symbol <;> decide

theorem solidBytes_token {c : Char} (solid : isBlank c = false) (blanks cs : List Char) :
    solidBytes cs + 1 ≤ solidBytes (blanks ++ c :: cs) := by
  have token := solidBytes_cons solid cs
  rw [solidBytes_append]
  omega

theorem solidBytes_enclosed {k : Nat} {cs : List Char} (inside : k ≤ solidBytes cs)
    (before : List Char) : k ≤ solidBytes ('(' :: (cs ++ (before ++ [')']))) := by
  have token := solidBytes_cons (show isBlank '(' = false by decide) (cs ++ (before ++ [')']))
  rw [solidBytes_append] at token
  omega

mutual

theorem signed_nodes {sign n : Nat} {cs : List Char} {e : Expr} :
    Signed sign n cs e → e.nodes.length ≤ solidBytes cs
  | .minus _ operand => by
    have inside := signed_nodes operand
    exact Nat.le_trans (Nat.succ_le_succ inside) (solidBytes_token (by decide) _ _)
  | .plus _ operand => by
    have inside := signed_nodes operand
    exact Nat.le_trans (Nat.le_succ_of_le inside) (solidBytes_token (by decide) _ _)
  | .number _ digits => by
    rw [solidBytes_append]
    exact Nat.le_add_left_of_le (solidBytes_pos (solid_of_number digits))
  | .variable _ named => by
    rw [solidBytes_append]
    exact Nat.le_add_left_of_le (solidBytes_pos (solid_of_name named))
  | .group _ inside _ => by
    rw [solidBytes_append]
    exact Nat.le_add_left_of_le (solidBytes_enclosed (chain_nodes inside) _)
  | @Signed.call _ _ _ _ _ _ before _ _ named _ inside _ => by
    have one := solidBytes_pos (solid_of_name named)
    have others := solidBytes_enclosed (arguments_nodes inside) before
    rw [nodes, List.length_cons, solidBytes_append, solidBytes_append, solidBytes_append]
    omega

theorem operand_nodes {sign n : Nat} {strength : Strength} {cs : List Char} {e : Expr} :
    Operand sign strength n cs e → e.nodes.length ≤ solidBytes cs
  | .ofSigned operand => signed_nodes operand
  | .ofProduct operand => chain_nodes operand

theorem chain_nodes {sign n : Nat} {strength : Strength} {cs : List Char} {e : Expr} :
    Chain sign strength n cs e → e.nodes.length ≤ solidBytes cs
  | .mk first more => by
    rw [nodes_grouped, solidBytes_append]
    exact Nat.add_le_add (operand_nodes first) (links_nodes more)

theorem links_nodes {sign n : Nat} {strength : Strength} {cs : List Char}
    {links : List (BinaryOp × Expr)} : Links sign strength n cs links →
    links.length + (links.flatMap fun link => link.2.nodes).length ≤ solidBytes cs
  | .nil => Nat.zero_le _
  | .cons _ symbol operand more => by
    have one := operand_nodes operand
    have others := links_nodes more
    refine Nat.le_trans ?_ (solidBytes_token (solid_symbol symbol) _ _)
    rw [solidBytes_append, List.length_cons, List.flatMap_cons, List.length_append]
    dsimp only
    omega

theorem arguments_nodes {sign n : Nat} {cs : List Char} {args : List Expr} :
    Arguments sign n cs args → (nodesOfAll args).length ≤ solidBytes cs
  | .none => Nat.zero_le _
  | .some first more => by
    rw [nodesOfAll, List.length_append, solidBytes_append]
    exact Nat.add_le_add (chain_nodes first) (moreArguments_nodes more)

theorem moreArguments_nodes {sign n : Nat} {cs : List Char} {args : List Expr} :
    MoreArguments sign n cs args → (nodesOfAll args).length ≤ solidBytes cs
  | .nil => Nat.zero_le _
  | .cons _ argument more => by
    have one := chain_nodes argument
    have others := moreArguments_nodes more
    refine Nat.le_trans ?_ (solidBytes_token (by decide) _ _)
    rw [nodesOfAll, List.length_append, solidBytes_append]
    omega

end

/-! ## Levels and nesting -/

/-- A chain opens no level of its own, however far it nests to the left. -/
theorem shallow_grouped {n : Nat} {first : Expr} {links : List (BinaryOp × Expr)}
    (one : Shallow n first) (others : ∀ e ∈ links.map Prod.snd, Shallow n e) :
    Shallow n (grouped first links) := by
  induction links generalizing first with
  | nil => exact one
  | cons link links ih =>
    have next := others link.2 (by simp)
    have lhs : ∀ part ∈ (binary link.1 first link.2).parts, Shallow n part := by
      simpa [parts] using ⟨one, next⟩
    rw [grouped, List.foldl_cons, ← grouped]
    exact ih (shallow_of_parts lhs (Nat.le_refl n)) fun e mem => others e (by simp [mem])

mutual

theorem signed_shallow {n : Nat} {cs : List Char} {e : Expr} : Signed 1 n cs e → Shallow n e
  | .minus _ operand =>
    shallow_of_parts (by simpa [parts] using signed_shallow operand) (Nat.le_refl _)
  | .plus _ operand => shallow_mono (signed_shallow operand) (Nat.le_succ _)
  | .number _ _ => shallow_of_parts (by simp [parts]) (Nat.le_refl 0)
  | .variable _ _ => shallow_of_parts (by simp [parts]) (Nat.le_refl 0)
  | .group _ inside _ => shallow_mono (chain_shallow inside) (Nat.le_succ _)
  | .call _ _ _ inside _ => shallow_of_parts (arguments_shallow inside) (Nat.le_refl _)

theorem operand_shallow {strength : Strength} {n : Nat} {cs : List Char} {e : Expr} :
    Operand 1 strength n cs e → Shallow n e
  | .ofSigned operand => signed_shallow operand
  | .ofProduct operand => chain_shallow operand

theorem chain_shallow {strength : Strength} {n : Nat} {cs : List Char} {e : Expr} :
    Chain 1 strength n cs e → Shallow n e
  | .mk first more => by
    apply shallow_grouped
    · exact shallow_mono (operand_shallow first) (Nat.le_max_left _ _)
    · exact fun e mem => shallow_mono (links_shallow more e mem) (Nat.le_max_right _ _)

theorem links_shallow {strength : Strength} {n : Nat} {cs : List Char}
    {links : List (BinaryOp × Expr)} :
    Links 1 strength n cs links → ∀ e ∈ links.map Prod.snd, Shallow n e
  | .nil => by simp
  | .cons _ _ operand more => shallow_cons (operand_shallow operand) (links_shallow more)

theorem arguments_shallow {n : Nat} {cs : List Char} {args : List Expr} :
    Arguments 1 n cs args → ∀ arg ∈ args, Shallow n arg
  | .none => by simp
  | .some first more => shallow_cons (chain_shallow first) (moreArguments_shallow more)

theorem moreArguments_shallow {n : Nat} {cs : List Char} {args : List Expr} :
    MoreArguments 1 n cs args → ∀ arg ∈ args, Shallow n arg
  | .nil => by simp
  | .cons _ argument more => shallow_cons (chain_shallow argument) (moreArguments_shallow more)

end

end Grammar

open Grammar

theorem nodes_le_of_calculation {sign n : Nat} {text : List Char} {e : Expr}
    (calculation : Calculation sign n text e) : e.nodes.length ≤ Text.solidBytes text := by
  obtain ⟨body, blanks, rfl, phrase, -⟩ := calculation
  rw [Text.solidBytes_append]
  exact Nat.le_add_right_of_le (chain_nodes phrase)

theorem shallow_of_calculation {n : Nat} {text : List Char} {e : Expr}
    (calculation : Calculation 1 n text e) : Shallow n e := by
  obtain ⟨body, blanks, rfl, phrase, -⟩ := calculation
  exact chain_shallow phrase

/-- A calculation that is read has no more nodes than bytes that are not blank, and so no more than
    the limit on its length. On no path do more signs and calls stand than may be open at once. Both
    phases of its evaluation come to their end with room for as many nested calls as that limit. -/
theorem small_of_parse {text : String} {e : Expr} (read : parse text = .ok e) :
    e.nodes.length ≤ Text.solidBytes text.toList ∧
    e.nodes.length ≤ maxCalculationBytes ∧
    (∀ path, Path e path → path.countP opens ≤ maxNesting ∧ path.length ≤ maxCalculationBytes) ∧
    (∀ functions ctx,
      bindWithin functions ctx maxCalculationBytes e = settled (bind functions ctx e)) ∧
    ∀ functions vars,
      evalWithin functions vars maxCalculationBytes e = settled (eval functions vars e) := by
  obtain ⟨short, n, shallow, calculation⟩ := (parse_eq_ok_iff text e).mp read
  have tokens := nodes_le_of_calculation calculation
  have few : e.nodes.length ≤ maxCalculationBytes :=
    Nat.le_trans tokens (Nat.le_trans (Text.solidBytes_le _) short)
  have paths : ∀ path, Path e path → path.length ≤ maxCalculationBytes :=
    fun path h => Nat.le_trans h.length_le few
  refine ⟨tokens, few, ?_, ?_, ?_⟩
  · intro path h
    exact ⟨shallow_mono (shallow_of_calculation calculation) shallow path h, paths path h⟩
  · intro functions ctx
    exact bindWithin_eq paths
  · intro functions vars
    exact evalWithin_eq paths

def discount : Expr := binary .sub (negate (call "max" [var "x", var "y"])) (var "z")

theorem small_of_parse_discount :
    parse "-max(x, y) - z" = .ok discount ∧
    discount.nodes.length ≤ Text.solidBytes "-max(x, y) - z".toList ∧
    (∀ path, Path discount path → path.countP opens ≤ maxNesting) ∧
    ∀ functions vars,
      evalWithin functions vars maxCalculationBytes discount =
        settled (eval functions vars discount) := by
  have read : parse "-max(x, y) - z" = .ok discount := rfl
  obtain ⟨tokens, -, paths, -, room⟩ := small_of_parse read
  exact ⟨read, tokens, fun path h => (paths path h).1, room⟩

end Expr
end Commission
