/-!
Finite maps from names, kept in the order of the names. `get?_insert` says what an insertion
changes, and `ofList_perm` that a map is rebuilt from its entries.
-/
namespace Commission

/-- Entries stand in strictly increasing order of their names, so no name occurs twice. -/
structure NameMap (α : Type) where
  entries : List (String × α)
  sorted : entries.Pairwise (fun a b => a.1 < b.1) := by exact List.Pairwise.nil

namespace NameMap
variable {α : Type}

def insertEntry (name : String) (value : α) : List (String × α) → List (String × α)
  | [] => [(name, value)]
  | entry :: rest =>
    if name < entry.1 then (name, value) :: entry :: rest
    else if name = entry.1 then (name, value) :: rest
    else entry :: insertEntry name value rest

theorem mem_insertEntry {name : String} {value : α} {entry : String × α}
    {entries : List (String × α)} (h : entry ∈ insertEntry name value entries) :
    entry = (name, value) ∨ entry ∈ entries := by
  induction entries with
  | nil => simpa [insertEntry] using h
  | cons first rest ih =>
    simp only [insertEntry] at h
    split at h
    · simpa using h
    · split at h
      · rcases List.mem_cons.1 h with h | h
        · exact .inl h
        · exact .inr (List.mem_cons_of_mem _ h)
      · rcases List.mem_cons.1 h with h | h
        · simp [h]
        · rcases ih h with h | h <;> simp [h]

theorem lt_of_not_lt_of_ne {a b : String} (not_lt : ¬ a < b) (ne : a ≠ b) : b < a := by
  rcases String.le_total a b with le | le
  · exact absurd (String.le_antisymm le (String.not_lt.1 not_lt)) ne
  · exact Decidable.byContradiction fun h => ne (String.le_antisymm (String.not_lt.1 h) le)

theorem sorted_insertEntry {name : String} {value : α} {entries : List (String × α)}
    (sorted : entries.Pairwise (fun a b => a.1 < b.1)) :
    (insertEntry name value entries).Pairwise (fun a b => a.1 < b.1) := by
  induction sorted with
  | nil => simp [insertEntry]
  | @cons first rest before sorted ih =>
    simp only [insertEntry]
    split
    · next lt =>
      refine .cons ?_ (.cons before sorted)
      intro entry mem
      rcases List.mem_cons.1 mem with rfl | mem
      · exact lt
      · exact String.lt_trans lt (before entry mem)
    · split
      · next eq => exact .cons (fun entry mem => eq ▸ before entry mem) sorted
      · next not_lt ne =>
        refine .cons ?_ ih
        intro entry mem
        rcases mem_insertEntry mem with rfl | mem
        · exact lt_of_not_lt_of_ne not_lt ne
        · exact before entry mem

def empty : NameMap α := ⟨[], .nil⟩

def insert (map : NameMap α) (name : String) (value : α) : NameMap α :=
  ⟨insertEntry name value map.entries, sorted_insertEntry map.sorted⟩

/-- Later pairs replace earlier ones of the same name. -/
def ofList (pairs : List (String × α)) : NameMap α :=
  pairs.foldl (fun map pair => map.insert pair.1 pair.2) empty

def get? (map : NameMap α) (name : String) : Option α := map.entries.lookup name

def contains (map : NameMap α) (name : String) : Bool := (map.get? name).isSome

def erase (map : NameMap α) (name : String) : NameMap α :=
  ⟨map.entries.filter (fun entry => entry.1 != name), map.sorted.filter _⟩

def size (map : NameMap α) : Nat := map.entries.length

def isEmpty (map : NameMap α) : Bool := map.entries.isEmpty

def names (map : NameMap α) : List String := map.entries.map (·.1)

theorem mem_of_mem_foldl {entry : String × α} {pairs : List (String × α)} {map : NameMap α}
    (mem : entry ∈ (pairs.foldl (fun map pair => map.insert pair.1 pair.2) map).entries) :
    entry ∈ map.entries ∨ entry ∈ pairs := by
  induction pairs generalizing map with
  | nil => exact .inl mem
  | cons pair rest ih =>
    rcases ih mem with mem | mem
    · rcases mem_insertEntry mem with rfl | mem
      · exact .inr List.mem_cons_self
      · exact .inl mem
    · exact .inr (List.mem_cons_of_mem _ mem)

theorem mem_of_mem_ofList {entry : String × α} {pairs : List (String × α)}
    (mem : entry ∈ (ofList pairs).entries) : entry ∈ pairs := by
  rcases mem_of_mem_foldl mem with mem | mem
  · contradiction
  · exact mem

theorem lookup_cons (name key : String) (value : α) (rest : List (String × α)) :
    ((key, value) :: rest).lookup name = if name = key then some value else rest.lookup name := by
  by_cases h : name = key <;> simp [List.lookup_cons, h, beq_eq_false_iff_ne.2]

theorem lookup_insertEntry (name other : String) (value : α) (entries : List (String × α)) :
    (insertEntry name value entries).lookup other =
      if other = name then some value else entries.lookup other := by
  induction entries with
  | nil => simp [insertEntry, lookup_cons]
  | cons first rest ih =>
    obtain ⟨key, old⟩ := first
    simp only [insertEntry]
    split
    · simp [lookup_cons]
    · split
      · next eq =>
        subst eq
        by_cases h : other = name <;> simp [lookup_cons, h]
      · next ne =>
        by_cases h : other = key
        · simp [h, Ne.symm ne]
        · simp [lookup_cons, h, ih]

theorem get?_insert (map : NameMap α) (name other : String) (value : α) :
    (map.insert name value).get? other = if other = name then some value else map.get? other :=
  lookup_insertEntry name other value map.entries

theorem get?_erase (map : NameMap α) (name other : String) :
    (map.erase name).get? other = if other = name then none else map.get? other := by
  simp only [get?, erase]
  induction map.entries with
  | nil => simp
  | cons first rest ih =>
    obtain ⟨key, value⟩ := first
    by_cases gone : key = name
    · rw [List.filter_cons_of_neg (by simp [gone]), ih, lookup_cons, gone]
      split <;> rfl
    · rw [List.filter_cons_of_pos (by simp [gone]), lookup_cons, lookup_cons, ih]
      by_cases h : other = key <;> simp [h, gone]

theorem insertEntry_perm {name : String} {entries : List (String × α)}
    (fresh : ∀ entry ∈ entries, entry.1 ≠ name) (value : α) :
    (insertEntry name value entries).Perm ((name, value) :: entries) := by
  induction entries with
  | nil => exact .refl _
  | cons first rest ih =>
    have other : name ≠ first.1 := Ne.symm (fresh first (by simp))
    have later := ih fun entry mem => fresh entry (List.mem_cons_of_mem _ mem)
    rw [insertEntry]
    rw [if_neg other]
    split
    · exact .refl _
    · exact (later.cons first).trans (.swap ..)

theorem entries_foldl_perm {pairs : List (String × α)} {map : NameMap α}
    (distinct : (map.entries ++ pairs).Pairwise fun a b => a.1 ≠ b.1) :
    (pairs.foldl (fun map pair => map.insert pair.1 pair.2) map).entries.Perm
      (map.entries ++ pairs) := by
  induction pairs generalizing map with
  | nil => simp
  | cons pair rest ih =>
    have step : (map.insert pair.1 pair.2).entries.Perm (map.entries ++ [pair]) := by
      have fresh := (List.pairwise_append.1 distinct).2.2
      exact (insertEntry_perm (fun entry mem => fresh entry mem pair (by simp)) _).trans
        (List.perm_append_singleton pair _).symm
    have both :
        ((map.insert pair.1 pair.2).entries ++ rest).Perm (map.entries ++ pair :: rest) := by
      simpa using step.append_right rest
    have apart := both.symm.pairwise distinct Ne.symm
    exact (ih apart).trans both

theorem entries_ofList_perm {pairs : List (String × α)}
    (distinct : pairs.Pairwise fun a b => a.1 ≠ b.1) : (ofList pairs).entries.Perm pairs :=
  @entries_foldl_perm α pairs empty distinct

theorem ofList_perm {pairs : List (String × α)} {map : NameMap α}
    (perm : pairs.Perm map.entries) : ofList pairs = map := by
  have distinct : map.entries.Pairwise fun a b => a.1 ≠ b.1 :=
    map.sorted.imp fun lt => String.ne_of_lt lt
  have apart := perm.symm.pairwise distinct Ne.symm
  have rebuilt : (ofList pairs).entries.Perm map.entries := (entries_ofList_perm apart).trans perm
  have same : (ofList pairs).entries = map.entries := by
    refine rebuilt.eq_of_pairwise (fun a b _ _ below above => ?_) (ofList pairs).sorted map.sorted
    exact absurd (String.lt_trans below above) (String.lt_irrefl _)
  cases h : ofList pairs
  cases map
  simp_all

end NameMap

end Commission
