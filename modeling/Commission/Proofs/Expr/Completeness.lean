import Commission.Proofs.Expr.Soundness

/-!
The reader of calculations misses nothing of the grammar. A phrase in front of a text that cannot
prolong it is taken whole if it nests less deeply than the levels that may open; otherwise the
reader refuses for good, so no other reading of the text is tried.
-/
namespace Commission.Expr.Grammar

/-- The reply is the phrase if there is room for it, and a final refusal if there is not. -/
def Settles {α : Type} (room : Prop) (reply : Reply α) (value : α) (rest : List Char) : Prop :=
  (room → reply = .done value rest) ∧ (¬ room → ∃ wanted stop, reply = .failed wanted stop)

section Replies
variable {α β : Type} {room more : Prop} {reply : Reply α} {value : α} {rest between : List Char}

theorem settles_done (holds : room) : Settles room (.done value rest) value rest :=
  ⟨fun _ => rfl, fun not => absurd holds not⟩

theorem settles_insist (h : Settles room reply value rest) :
    Settles room reply.insist value rest := by
  constructor
  · intro holds
    rw [h.1 holds]
    rfl
  · intro not
    obtain ⟨wanted, stop, eq⟩ := h.2 not
    exact ⟨wanted, stop, by rw [eq]; rfl⟩

theorem settles_wanting (w : Wanted) (h : Settles room reply value rest) :
    Settles room (reply.wanting w) value rest := by
  constructor
  · intro holds
    rw [h.1 holds]
    rfl
  · intro not
    obtain ⟨wanted, stop, eq⟩ := h.2 not
    exact ⟨wanted ++ [w], stop, by rw [eq]; rfl⟩

theorem settles_andThen {next : α → List Char → Reply β} {result : β}
    (h : Settles room reply value between)
    (tail : room → Settles more (next value between) result rest) :
    Settles (room ∧ more) (reply.andThen next) result rest := by
  by_cases holds : room
  · rw [h.1 holds]
    constructor
    · intro both
      exact (tail holds).1 both.2
    · intro not
      exact (tail holds).2 fun also => not ⟨holds, also⟩
  · obtain ⟨wanted, stop, eq⟩ := h.2 holds
    constructor
    · intro both
      exact absurd both.1 holds
    · intro _
      exact ⟨wanted, stop, by rw [eq]; rfl⟩

/-- What always succeeds after a phrase needs no room of its own. -/
theorem settles_then (next : α → List Char → Reply β) {result : β}
    (h : Settles room reply value between) (tail : next value between = .done result rest) :
    Settles room (reply.andThen next) result rest := by
  have both : Settles (room ∧ True) (reply.andThen next) result rest :=
    settles_andThen h fun _ => tail ▸ settles_done trivial
  rwa [and_true] at both

theorem settles_map (f : α → β) (h : Settles room reply value rest) :
    Settles room (reply.map f) (f value) rest :=
  settles_then (fun a rest => .done (f a) rest) h rfl

theorem settles_congr (same : room ↔ more) (h : Settles room reply value rest) :
    Settles more reply value rest := by
  rwa [propext same] at h

end Replies

namespace Strength

def operand (levels : Nat) : Strength → Reader Expr
  | product => signed levels
  | sum => chain productOp? (signed levels)

def afterOperand : Strength → List Char
  | product => Grammar.afterOperand
  | sum => afterProduct

def after : Strength → List Char
  | product => afterProduct
  | sum => afterSum

theorem op?_of_mem_after {strength : Strength} {c : Char} (mem : c ∈ strength.after) :
    strength.op? c = none := by
  cases strength with
  | product =>
    simp only [after, afterProduct, List.mem_cons, List.not_mem_nil, or_false] at mem
    rcases mem with rfl | rfl | rfl | rfl <;> rfl
  | sum =>
    simp only [after, afterSum, List.mem_cons, List.not_mem_nil, or_false] at mem
    rcases mem with rfl | rfl <;> rfl

theorem Symbol.follows {strength : Strength} {c : Char} {op : BinaryOp}
    (symbol : strength.Symbol c op) : isSpace c = false ∧ c ∈ strength.afterOperand := by
  cases symbol <;> decide

theorem after_subset (strength : Strength) : ∀ c ∈ strength.after, c ∈ strength.afterOperand := by
  intro c mem
  cases strength with
  | product =>
    simp only [after, afterProduct, List.mem_cons, List.not_mem_nil, or_false] at mem
    rcases mem with rfl | rfl | rfl | rfl <;> decide
  | sum =>
    simp only [after, afterSum, List.mem_cons, List.not_mem_nil, or_false] at mem
    rcases mem with rfl | rfl <;> decide

end Strength

theorem chainTail_stop {strength : Strength} {reader : Reader Expr} {rest : List Char}
    (follows : Follows strength.after rest) (fuel : Nat) (lhs : Expr) :
    chainTail strength.op? reader fuel lhs rest = .done lhs rest := by
  cases fuel with
  | zero => rfl
  | succ fuel =>
    simp only [chainTail]
    split
    · rfl
    · next c after here =>
      have mem : c ∈ strength.after := follows c (by simp [here])
      simp [Strength.op?_of_mem_after mem]

theorem follows_links {strength : Strength} {n : Nat} {ds rest : List Char}
    {links : List (BinaryOp × Expr)} (phrase : Links 1 strength n ds links)
    (follows : Follows strength.after rest) : Follows strength.afterOperand (ds ++ rest) := by
  cases phrase with
  | nil => exact follows_mono strength.after_subset follows
  | cons blank symbol operand more =>
    rw [List.append_assoc, List.cons_append]
    exact follows_token _ blank symbol.follows.1 symbol.follows.2

theorem follows_arguments {n : Nat} {ds stop : List Char} {es : List Expr}
    (phrase : MoreArguments 1 n ds es) (follows : Follows afterSum stop) :
    Follows afterSum (ds ++ stop) := by
  cases phrase with
  | nil => exact follows
  | cons blank argument more =>
    rw [List.append_assoc, List.cons_append]
    exact follows_token _ blank (by decide) (by decide)

theorem closing_eq {α : Type} (value : α) {before : List Char} (rest : List Char)
    (blank : Blank before) : closing value (before ++ ')' :: rest) = .done value rest := by
  have here : skipSpaces (before ++ ')' :: rest) = ')' :: rest :=
    skipSpaces_token rest blank (by decide)
  simp only [closing, here]

def StartsUnsigned (cs : List Char) : Prop :=
  ∃ c tail, cs = c :: tail ∧ isSpace c = false ∧ c ≠ '-' ∧ c ≠ '+'

theorem startsUnsigned_number {cs : List Char} {d : Decimal} (number : Number cs d) :
    StartsUnsigned cs := by
  obtain ⟨c, rest, rfl, digit | rfl⟩ := number_head number
  · refine ⟨c, rest, rfl, ?_, ?_, ?_⟩
    · cases space : isSpace c with
      | false => rfl
      | true => rw [isDigit_of_isSpace space] at digit; contradiction
    · rintro rfl; contradiction
    · rintro rfl; contradiction
  · exact ⟨'.', rest, rfl, by decide, by decide, by decide⟩

theorem startsUnsigned_name {name : List Char} (named : Text.Identifier.isIdentifier name) :
    StartsUnsigned name := by
  obtain ⟨c, tail, rfl, start⟩ := Text.Identifier.head_of_isIdentifier named
  exact ⟨c, tail, rfl, isSpace_of_isStart start,
    Text.Identifier.ne_of_isStart start (by decide),
    Text.Identifier.ne_of_isStart start (by decide)⟩

theorem startsUnsigned_parenthesis (cs : List Char) : StartsUnsigned ('(' :: cs) :=
  ⟨'(', cs, rfl, by decide, by decide, by decide⟩

theorem signed_succ_eq {levels : Nat} {blanks cs : List Char} (rest : List Char)
    (blank : Blank blanks) (start : StartsUnsigned cs) :
    signed (levels + 1) (blanks ++ (cs ++ rest)) =
      (unsigned (sum (signed levels)) (cs ++ rest)).wanting .operand := by
  obtain ⟨c, tail, rfl, solid, minus, plus⟩ := start
  simp only [List.cons_append, signed, skipSpaces_token (tail ++ rest) blank solid]
  split
  · simp_all
  · simp_all
  · rw [primary, skipSpaces_cons (tail ++ rest) solid]

/-- Where an argument could stand but the list is closed, the reader declines. -/
theorem sum_closing (levels : Nat) {before : List Char} (rest : List Char) (blank : Blank before) :
    ∃ wanted stop, sum (signed (levels + 1)) (before ++ ')' :: rest) = .declined wanted stop := by
  have declined : unsigned (sum (signed levels)) (')' :: rest) = .declined [] (')' :: rest) := by
    have digits : number? (')' :: rest) = none := number?_none rest (by decide) (by decide)
    simp only [unsigned, digits]
    rfl
  have start : StartsUnsigned [')'] := ⟨')', [], rfl, by decide, by decide, by decide⟩
  have operand : signed (levels + 1) (before ++ ')' :: rest) = _ := signed_succ_eq rest blank start
  rw [List.singleton_append, declined] at operand
  exact ⟨[.operand], ')' :: rest, by
    simp [sum, chain, operand, Reply.wanting, Reply.andThen]⟩

theorem unsigned_number (expr : Reader Expr) {cs rest : List Char} {d : Decimal}
    (number : Number cs d) (follows : Follows afterOperand rest) :
    unsigned expr (cs ++ rest) = .done (.number (.ofDecimal false d)) rest := by
  simp only [unsigned, number?_complete number follows]

theorem unsigned_group (expr : Reader Expr) (inside : List Char) :
    unsigned expr ('(' :: inside) = (expr inside).insist.andThen closing := by
  have digits : number? ('(' :: inside) = none := number?_none inside (by decide) (by decide)
  simp only [unsigned, digits]

theorem unsigned_name (expr : Reader Expr) {name : List Char} (rest : List Char)
    (named : Text.Identifier.isIdentifier name) :
    unsigned expr (name ++ rest) = callOrVariable expr (name ++ rest) := by
  obtain ⟨c, tail, rfl, start⟩ := Text.Identifier.head_of_isIdentifier named
  have noDigit := Text.Identifier.isDigit_of_isStart start
  have noPoint : c ≠ '.' := Text.Identifier.ne_of_isStart start (by decide)
  simp only [List.cons_append, unsigned, number?_none (tail ++ rest) noDigit noPoint]
  split
  · next inside same =>
    obtain ⟨rfl, -⟩ := by simpa using same
    contradiction
  · rfl

theorem unsigned_variable (expr : Reader Expr) {name rest : List Char}
    (named : Text.Identifier.isIdentifier name) (follows : Follows afterOperand rest) :
    unsigned expr (name ++ rest) = .done (var (String.ofList name)) rest := by
  rw [unsigned_name expr rest named]
  simp only [callOrVariable, Text.Identifier.read?_append named (part_stops follows)]
  split
  · next inside here =>
    have := follows '(' (by simp [here])
    contradiction
  · rfl

theorem unsigned_call (expr : Reader Expr) {name between : List Char} (inside : List Char)
    (named : Text.Identifier.isIdentifier name) (blank : Blank between) :
    unsigned expr (name ++ (between ++ '(' :: inside)) =
      (arguments expr inside).andThen fun args rest =>
        (closing (Expr.call (String.ofList name) args) rest).wanting .closing := by
  have stop : ∀ c ∈ (between ++ '(' :: inside).head?, Text.Identifier.isPart c = false :=
    parts_end_before blank (by decide) inside
  have here : skipSpaces (between ++ '(' :: inside) = '(' :: inside :=
    skipSpaces_token inside blank (by decide)
  rw [unsigned_name expr _ named]
  simp only [callOrVariable, Text.Identifier.read?_append named stop, here]

mutual

theorem signed_settles {n : Nat} {text : List Char} {e : Expr} :
    Signed 1 n text e → ∀ (levels : Nat) (rest : List Char), Follows afterOperand rest →
      Settles (n < levels) (signed levels (text ++ rest)) e rest
  | phrase, 0, rest, _ => ⟨fun room => by omega, fun _ => ⟨_, _, rfl⟩⟩
  | @Signed.minus _ n _ cs e blank operand, levels + 1, rest, follows => by
    have inner := settles_map negate (settles_insist (signed_settles operand levels rest follows))
    have here : skipSpaces (_ ++ '-' :: (cs ++ rest)) = '-' :: (cs ++ rest) :=
      skipSpaces_token _ blank (by decide)
    rw [List.append_assoc, List.cons_append]
    simp only [signed, here]
    exact settles_congr (by omega) inner
  | @Signed.plus _ n _ cs _ blank operand, levels + 1, rest, follows => by
    have inner := settles_insist (signed_settles operand levels rest follows)
    have here : skipSpaces (_ ++ '+' :: (cs ++ rest)) = '+' :: (cs ++ rest) :=
      skipSpaces_token _ blank (by decide)
    rw [List.append_assoc, List.cons_append]
    simp only [signed, here]
    exact settles_congr (by omega) inner
  | .number blank digits, levels + 1, rest, follows => by
    rw [List.append_assoc, signed_succ_eq rest blank (startsUnsigned_number digits),
      unsigned_number _ digits follows]
    exact settles_done (by omega)
  | .variable blank named, levels + 1, rest, follows => by
    rw [List.append_assoc, signed_succ_eq rest blank (startsUnsigned_name named),
      unsigned_variable _ named follows]
    exact settles_done (by omega)
  | @Signed.group _ n _ cs before e blank inside blank', levels + 1, rest, follows => by
    have stop : Follows afterSum (before ++ ')' :: rest) :=
      follows_token rest blank' (by decide) (by decide)
    have inner := settles_insist (chain_settles inside levels _ stop)
    have group := settles_wanting .operand
      (settles_then closing inner (closing_eq e rest blank'))
    rw [List.append_assoc, signed_succ_eq rest blank (startsUnsigned_parenthesis _),
      List.cons_append, unsigned_group]
    simp only [List.append_assoc, List.singleton_append]
    exact settles_congr (by omega) group
  | @Signed.call _ n _ name between cs before args blank named blank' inside blank'', levels + 1,
      rest, follows => by
    have inner := arguments_settles inside levels rest blank''
    have call := settles_wanting .operand (settles_then (fun args rest =>
      (closing (Expr.call (String.ofList name) args) rest).wanting .closing) inner
      (by rw [closing_eq _ rest blank'']; rfl))
    simp only [List.append_assoc, List.cons_append, List.nil_append]
    rw [signed_succ_eq _ blank (startsUnsigned_name named), unsigned_call _ _ named blank']
    exact settles_congr (by omega) call

theorem operand_settles {strength : Strength} {n : Nat} {text : List Char} {e : Expr} :
    Operand 1 strength n text e → ∀ (levels : Nat) (rest : List Char),
      Follows strength.afterOperand rest →
      Settles (n < levels) (strength.operand levels (text ++ rest)) e rest
  | .ofSigned phrase, levels, rest, follows => signed_settles phrase levels rest follows
  | .ofProduct phrase, levels, rest, follows => chain_settles phrase levels rest follows

theorem chain_settles {strength : Strength} {n : Nat} {text : List Char} {e : Expr} :
    Chain 1 strength n text e → ∀ (levels : Nat) (rest : List Char),
      Follows strength.after rest →
      Settles (n < levels) (chain strength.op? (strength.operand levels) (text ++ rest)) e rest
  | @Chain.mk _ _ _ _ _ ds _ _ first more, levels, rest, follows => by
    have head := operand_settles first levels (ds ++ rest) (follows_links more follows)
    have tail := links_settles more levels rest follows
    rw [List.append_assoc]
    refine settles_congr ?_ (settles_andThen head fun room =>
      tail _ (by omega) (by simp) _)
    omega

theorem links_settles {strength : Strength} {n : Nat} {text : List Char}
    {links : List (BinaryOp × Expr)} :
    Links 1 strength n text links → ∀ (levels : Nat) (rest : List Char),
      Follows strength.after rest → ∀ fuel, 0 < levels → text.length ≤ fuel → ∀ lhs,
      Settles (n < levels)
        (chainTail strength.op? (strength.operand levels) fuel lhs (text ++ rest))
        (grouped lhs links) rest
  | .nil, levels, rest, follows, fuel, room, enough, lhs => by
    rw [List.nil_append, chainTail_stop follows]
    exact settles_done room
  | @Links.cons _ _ n _ _ cs ds _ op e _ blank symbol operand more, levels, rest,
      follows, fuel, room, enough, lhs => by
    cases fuel with
    | zero => simp at enough
    | succ fuel =>
      have head := settles_insist
        (operand_settles operand levels (ds ++ rest) (follows_links more follows))
      have fits : ds.length ≤ fuel := by simp at enough; omega
      have tail := links_settles more levels rest follows fuel room fits (binary op lhs e)
      have here := skipSpaces_token (cs ++ (ds ++ rest)) blank symbol.follows.1
      rw [List.append_assoc, List.cons_append, List.append_assoc]
      simp only [chainTail, here, Strength.op?_eq_some_iff.mpr symbol]
      exact settles_congr (by omega) (settles_andThen head fun _ => tail)

theorem arguments_settles {n : Nat} {text : List Char} {args : List Expr} :
    Arguments 1 n text args → ∀ (levels : Nat) (rest : List Char) {before : List Char},
      Blank before →
      Settles (n < levels) (arguments (sum (signed levels)) (text ++ (before ++ ')' :: rest))) args
        (before ++ ')' :: rest)
  | .none, 0, rest, _, blank => ⟨fun room => by omega, fun _ => ⟨_, _, rfl⟩⟩
  | .none, levels + 1, rest, before, blank => by
    obtain ⟨wanted, stop, declined⟩ := sum_closing levels rest blank
    simp only [List.nil_append, arguments, declined]
    exact settles_done (by omega)
  | @Arguments.some _ n _ _ ds e _ first more, levels, rest, before, blank => by
    have stop : Follows afterSum (before ++ ')' :: rest) :=
      follows_token rest blank (by decide) (by decide)
    have head := chain_settles first levels _ (follows_arguments more stop)
    change Settles _ (sum (signed levels) _) _ _ at head
    rw [List.append_assoc]
    by_cases room : n < levels
    · simp only [arguments, head.1 room]
      have tail := moreArguments_settles more levels rest blank
        (ds ++ (before ++ ')' :: rest)).length (by omega) (by simp) [e]
      exact settles_congr (by omega) tail
    · obtain ⟨wanted, stop, failed⟩ := head.2 room
      simp only [arguments, failed]
      exact ⟨fun deep => by omega, fun _ => ⟨_, _, rfl⟩⟩

theorem moreArguments_settles {n : Nat} {text : List Char} {more : List Expr} :
    MoreArguments 1 n text more → ∀ (levels : Nat) (rest : List Char) {before : List Char},
      Blank before → ∀ fuel, 0 < levels → text.length ≤ fuel → ∀ args,
      Settles (n < levels)
        (moreArguments (sum (signed levels)) fuel args (text ++ (before ++ ')' :: rest)))
        (args ++ more) (before ++ ')' :: rest)
  | .nil, levels, rest, before, blank, fuel, room, enough, args => by
    have here : skipSpaces (before ++ ')' :: rest) = ')' :: rest :=
      skipSpaces_token rest blank (by decide)
    have done : moreArguments (sum (signed levels)) fuel args (before ++ ')' :: rest) =
        .done args (before ++ ')' :: rest) := by
      cases fuel with
      | zero => rfl
      | succ fuel =>
        simp only [moreArguments, here]
        rfl
    rw [List.nil_append, List.append_nil, done]
    exact settles_done room
  | @MoreArguments.cons _ n _ _ cs ds e _ blank argument more, levels, rest, before, blank',
      fuel, room, enough, args => by
    cases fuel with
    | zero => simp at enough
    | succ fuel =>
      have stop : Follows afterSum (before ++ ')' :: rest) :=
        follows_token rest blank' (by decide) (by decide)
      have head := chain_settles argument levels _ (follows_arguments more stop)
      change Settles _ (sum (signed levels) _) _ _ at head
      have here : skipSpaces (_ ++ ',' :: (cs ++ (ds ++ (before ++ ')' :: rest)))) =
          ',' :: (cs ++ (ds ++ (before ++ ')' :: rest))) := skipSpaces_token _ blank (by decide)
      rw [List.append_assoc, List.cons_append, List.append_assoc]
      by_cases deep : n < levels
      · have fits : ds.length ≤ fuel := by simp at enough; omega
        have tail := moreArguments_settles more levels rest blank' fuel room fits (args ++ [e])
        simp only [moreArguments, here, head.1 deep]
        rw [List.append_assoc, List.singleton_append] at tail
        exact settles_congr (by omega) tail
      · obtain ⟨wanted, stop, failed⟩ := head.2 deep
        simp only [moreArguments, here, failed]
        exact ⟨fun both => by omega, fun _ => ⟨_, _, rfl⟩⟩

end

end Commission.Expr.Grammar
