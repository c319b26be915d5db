import Commission.Proofs.Expr.Tokens

/-!
What the reader of calculations accepts is in the grammar: a reader that may open `levels` levels
takes a phrase off the front of its text, and the phrase nests less deeply than that.
-/
namespace Commission.Expr.Grammar

theorem insist_eq_done {α : Type} {reply : Reply α} {value : α} {rest : List Char} :
    reply.insist = .done value rest ↔ reply = .done value rest := by
  cases reply <;> simp [Reply.insist]

theorem wanting_eq_done {α : Type} {w : Wanted} {reply : Reply α} {value : α} {rest : List Char} :
    reply.wanting w = .done value rest ↔ reply = .done value rest := by
  cases reply <;> simp [Reply.wanting]

theorem andThen_eq_done {α β : Type} {reply : Reply α} {next : α → List Char → Reply β} {b : β}
    {rest : List Char} :
    reply.andThen next = .done b rest ↔
      ∃ a between, reply = .done a between ∧ next a between = .done b rest := by
  cases reply with
  | done a between => simp [Reply.andThen, and_assoc]
  | declined wanted stop => simp [Reply.andThen]
  | failed wanted stop => simp [Reply.andThen]

theorem map_eq_done {α β : Type} {f : α → β} {reply : Reply α} {b : β} {rest : List Char} :
    reply.map f = .done b rest ↔ ∃ a, reply = .done a rest ∧ f a = b := by
  rw [Reply.map, andThen_eq_done]
  simp only [Reply.done.injEq]
  grind

/-- Whatever a reader takes off a text is a phrase with less nesting than `levels`. -/
def Sound {α : Type} (levels : Nat) (reader : Reader α) (Phrase : Nat → List Char → α → Prop) :
    Prop :=
  ∀ cs value rest, reader cs = .done value rest →
    ∃ n text, n < levels ∧ cs = text ++ rest ∧ Phrase n text value

section Chains
variable {levels : Nat} {strength : Strength} {operand : Reader Expr}

theorem chainTail_sound (sound : Sound levels operand (Operand 1 strength)) (room : 0 < levels)
    {fuel : Nat} {lhs e : Expr} {cs rest : List Char}
    (run : chainTail strength.op? operand fuel lhs cs = .done e rest) :
    ∃ n text links, n < levels ∧ cs = text ++ rest ∧ Links 1 strength n text links ∧
      e = grouped lhs links := by
  induction fuel generalizing lhs cs with
  | zero =>
    obtain ⟨rfl, rfl⟩ := by simpa [chainTail] using run
    exact ⟨0, [], [], room, rfl, .nil, rfl⟩
  | succ fuel ih =>
    obtain ⟨blanks, blank, split⟩ := skipSpaces_split cs
    simp only [chainTail] at run
    split at run
    · obtain ⟨rfl, rfl⟩ := by simpa using run
      exact ⟨0, [], [], room, rfl, .nil, rfl⟩
    · next c after here =>
      split at run
      · obtain ⟨rfl, rfl⟩ := by simpa using run
        exact ⟨0, [], [], room, rfl, .nil, rfl⟩
      · next op symbol =>
        obtain ⟨rhs, between, taken, tail⟩ := andThen_eq_done.mp run
        obtain ⟨n, text, shallow, rfl, phrase⟩ := sound _ _ _ (insist_eq_done.mp taken)
        obtain ⟨m, more, links, shallow', rfl, chain, rfl⟩ := ih tail
        refine ⟨max n m, blanks ++ c :: (text ++ more), (op, rhs) :: links, by omega, ?_,
          .cons blank (Strength.op?_eq_some_iff.mp symbol) phrase chain, rfl⟩
        rw [split, here]
        simp

theorem chain_sound (sound : Sound levels operand (Operand 1 strength)) :
    Sound levels (chain strength.op? operand) (Chain 1 strength) := by
  intro cs e rest run
  obtain ⟨first, between, taken, tail⟩ := andThen_eq_done.mp run
  obtain ⟨n, text, shallow, rfl, phrase⟩ := sound _ _ _ taken
  obtain ⟨m, more, links, shallow', rfl, chain, rfl⟩ := chainTail_sound sound (by omega) tail
  exact ⟨max n m, text ++ more, by omega, by simp, .mk phrase chain⟩

theorem sum_sound {signed : Reader Expr} (sound : Sound levels signed (Signed 1)) :
    Sound levels (sum signed) (Chain 1 .sum) := by
  have factors : Sound levels signed (Operand 1 .product) := by
    intro cs e rest run
    obtain ⟨n, text, shallow, split, phrase⟩ := sound cs e rest run
    exact ⟨n, text, shallow, split, .ofSigned phrase⟩
  have terms : Sound levels (chain productOp? signed) (Operand 1 .sum) := by
    intro cs e rest run
    obtain ⟨n, text, shallow, split, phrase⟩ := chain_sound factors cs e rest run
    exact ⟨n, text, shallow, split, .ofProduct phrase⟩
  exact chain_sound terms

end Chains

theorem closing_sound {α : Type} {value result : α} {cs rest : List Char}
    (run : closing value cs = .done result rest) :
    result = value ∧ ∃ before, Blank before ∧ cs = before ++ ')' :: rest := by
  obtain ⟨before, blank, split⟩ := skipSpaces_split cs
  simp only [closing] at run
  split at run
  · next after here =>
    obtain ⟨rfl, rfl⟩ := by simpa using run
    exact ⟨rfl, before, blank, here ▸ split⟩
  · simp at run

section Primaries
variable {levels : Nat} {expr : Reader Expr}

theorem moreArguments_sound (sound : Sound levels expr (Chain 1 .sum)) (room : 0 < levels)
    {fuel : Nat} {args result : List Expr} {cs rest : List Char}
    (run : moreArguments expr fuel args cs = .done result rest) :
    ∃ n text more, n < levels ∧ cs = text ++ rest ∧ MoreArguments 1 n text more ∧
      result = args ++ more := by
  induction fuel generalizing args cs with
  | zero =>
    obtain ⟨rfl, rfl⟩ := by simpa [moreArguments] using run
    exact ⟨0, [], [], room, rfl, .nil, by simp⟩
  | succ fuel ih =>
    obtain ⟨blanks, blank, split⟩ := skipSpaces_split cs
    simp only [moreArguments] at run
    split at run
    · next after here =>
      split at run
      · next arg between taken =>
        obtain ⟨n, text, shallow, rfl, phrase⟩ := sound _ _ _ taken
        obtain ⟨m, more, args', shallow', rfl, list, rfl⟩ := ih run
        refine ⟨max n m, blanks ++ ',' :: (text ++ more), arg :: args', by omega, ?_,
          .cons blank phrase list, by simp⟩
        rw [split, here]
        simp
      · obtain ⟨rfl, rfl⟩ := by simpa using run
        exact ⟨0, [], [], room, rfl, .nil, by simp⟩
      · simp at run
    · obtain ⟨rfl, rfl⟩ := by simpa using run
      exact ⟨0, [], [], room, rfl, .nil, by simp⟩

/-- An empty list of arguments shows in a reader that declines, which one without levels never
    does. -/
theorem arguments_sound (sound : Sound levels expr (Chain 1 .sum))
    (declines : ∀ cs wanted rest, expr cs = .declined wanted rest → 0 < levels) :
    Sound levels (arguments expr) (Arguments 1) := by
  intro cs args rest run
  simp only [arguments] at run
  split at run
  · next first between taken =>
    obtain ⟨n, text, shallow, rfl, phrase⟩ := sound _ _ _ taken
    obtain ⟨m, more, args', shallow', rfl, list, rfl⟩ :=
      moreArguments_sound sound (by omega) run
    exact ⟨max n m, text ++ more, by omega, by simp, .some phrase list⟩
  · next wanted stop declined =>
    obtain ⟨rfl, rfl⟩ := by simpa using run
    exact ⟨0, [], declines _ _ _ declined, rfl, .none⟩
  · simp at run

theorem callOrVariable_sound (sound : Sound levels expr (Chain 1 .sum))
    (declines : ∀ cs wanted rest, expr cs = .declined wanted rest → 0 < levels)
    {blanks : List Char} (blank : Blank blanks) {cs rest : List Char} {e : Expr}
    (run : callOrVariable expr cs = .done e rest) :
    ∃ n text, n < levels + 1 ∧ cs = text ++ rest ∧ Signed 1 n (blanks ++ text) e := by
  simp only [callOrVariable] at run
  split at run
  · simp at run
  · next name after read =>
    obtain ⟨rfl, named, -⟩ := Text.Identifier.read?_eq_some read
    split at run
    · next inside here =>
      obtain ⟨between, blank', split⟩ := skipSpaces_split after
      obtain ⟨args, stop, taken, close⟩ := andThen_eq_done.mp run
      obtain ⟨n, text, shallow, rfl, phrase⟩ := arguments_sound sound declines _ _ _ taken
      obtain ⟨rfl, before, blank'', rfl⟩ := closing_sound (wanting_eq_done.mp close)
      refine ⟨n + 1, name ++ (between ++ '(' :: (text ++ (before ++ [')']))), by omega, ?_,
        .call blank named blank' phrase blank''⟩
      rw [split, here]
      simp
    · obtain ⟨rfl, rfl⟩ := by simpa using run
      exact ⟨0, name, by omega, rfl, .variable blank named⟩

theorem unsigned_sound (sound : Sound levels expr (Chain 1 .sum))
    (declines : ∀ cs wanted rest, expr cs = .declined wanted rest → 0 < levels)
    {blanks : List Char} (blank : Blank blanks) {cs rest : List Char} {e : Expr}
    (run : unsigned expr cs = .done e rest) :
    ∃ n text, n < levels + 1 ∧ cs = text ++ rest ∧ Signed 1 n (blanks ++ text) e := by
  simp only [unsigned] at run
  split at run
  · next d after read =>
    obtain ⟨rfl, rfl⟩ := by simpa using run
    obtain ⟨text, rfl, digits⟩ := number?_sound read
    exact ⟨0, text, by omega, rfl, .number blank digits⟩
  · split at run
    · next inside =>
      obtain ⟨inner, stop, taken, close⟩ := andThen_eq_done.mp run
      obtain ⟨n, text, shallow, rfl, phrase⟩ := sound _ _ _ (insist_eq_done.mp taken)
      obtain ⟨rfl, before, blank', rfl⟩ := closing_sound close
      exact ⟨n + 1, '(' :: (text ++ (before ++ [')'])), by omega, by simp,
        .group blank phrase blank'⟩
    · exact callOrVariable_sound sound declines blank run

end Primaries

/-- A calculation that may open no level at all is refused for good. -/
theorem levels_of_declined {levels : Nat} {cs rest : List Char} {wanted : List Wanted}
    (h : sum (signed levels) cs = .declined wanted rest) : 0 < levels := by
  cases levels with
  | zero => simp [sum, chain, signed, Reply.andThen] at h
  | succ levels => omega

theorem signed_sound (levels : Nat) : Sound levels (signed levels) (Signed 1) := by
  induction levels with
  | zero =>
    intro cs e rest run
    simp [signed] at run
  | succ levels ih =>
    intro cs e rest run
    obtain ⟨blanks, blank, split⟩ := skipSpaces_split cs
    simp only [signed] at run
    split at run
    · next after here =>
      obtain ⟨inner, taken, rfl⟩ := map_eq_done.mp run
      obtain ⟨n, text, shallow, rfl, phrase⟩ := ih _ _ _ (insist_eq_done.mp taken)
      refine ⟨n + 1, blanks ++ '-' :: text, by omega, ?_, .minus blank phrase⟩
      rw [split, here]
      simp
    · next after here =>
      obtain ⟨n, text, shallow, rfl, phrase⟩ := ih _ _ _ (insist_eq_done.mp run)
      refine ⟨n + 1, blanks ++ '+' :: text, by omega, ?_, .plus blank phrase⟩
      rw [split, here]
      simp
    · rw [primary, wanting_eq_done, skipSpaces_idem] at run
      obtain ⟨n, text, shallow, same, phrase⟩ :=
        unsigned_sound (sum_sound ih) (fun _ _ _ => levels_of_declined) blank run
      exact ⟨n, blanks ++ text, shallow, by rw [split, same]; simp, phrase⟩

end Commission.Expr.Grammar
