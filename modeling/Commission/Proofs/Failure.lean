/-!
Which error a sequence of steps ends with. Steps run one after the other and the first failure is
the failure of all; renaming errors commutes with running.
-/
namespace Commission

section Steps
variable {ε ε' α β γ : Type}

def failure? : Except ε α → Option ε
  | .ok _ => none
  | .error e => some e

theorem failure?_eq_some_iff {x : Except ε α} {e : ε} : failure? x = some e ↔ x = .error e := by
  cases x <;> simp [failure?]

theorem failure?_eq_none_iff {x : Except ε α} : failure? x = none ↔ ∃ a, x = .ok a := by
  cases x <;> simp [failure?]

theorem toOption_eq_some_iff {x : Except ε α} {a : α} : x.toOption = some a ↔ x = .ok a := by
  cases x <;> simp [Except.toOption]

theorem failure?_bind {x : Except ε α} {next : α → Except ε β} {later : Option ε}
    (same : ∀ a, x = .ok a → failure? (next a) = later) :
    failure? (x >>= next) = (failure? x).or later := by
  cases x with
  | error e => rfl
  | ok a => exact same a rfl

theorem bind_eq_ok_iff {x : Except ε α} {next : α → Except ε β} {b : β} :
    (x >>= next) = .ok b ↔ ∃ a, x = .ok a ∧ next a = .ok b := by
  cases x <;> simp [Bind.bind, Except.bind]

theorem bind_fails_iff {x : Except ε α} {next : α → Except ε β} {e : ε} :
    (x >>= next) = .error e ↔ x = .error e ∨ ∃ a, x = .ok a ∧ next a = .error e := by
  cases x <;> simp [Bind.bind, Except.bind]

theorem andThen_eq_ok_iff {x y : Except ε Unit} :
    (x >>= fun _ => y) = .ok () ↔ x = .ok () ∧ y = .ok () := by
  rw [bind_eq_ok_iff]
  exact ⟨fun ⟨(), both⟩ => both, fun both => ⟨(), both⟩⟩

theorem map_eq_ok_iff {x : Except ε α} {f : α → β} {b : β} :
    x.map f = .ok b ↔ ∃ a, x = .ok a ∧ f a = b := by
  cases x <;> simp [Except.map]

section Pairs
variable {x : Except ε α} {y : Except ε β} {f : α → β → γ}

theorem both_eq_ok_iff {c : γ} :
    (x >>= fun a => y >>= fun b => pure (f a b)) = .ok c ↔
      ∃ a b, x = .ok a ∧ y = .ok b ∧ f a b = c := by
  cases x <;> cases y <;> simp [Bind.bind, Except.bind, pure, Except.pure]

theorem failure?_both :
    failure? (x >>= fun a => y >>= fun b => pure (f a b)) = (failure? x).or (failure? y) := by
  apply failure?_bind
  intro a first
  cases y <;> rfl

end Pairs

theorem failure?_mapM (f : α → Except ε β) (xs : List α) :
    failure? (xs.mapM f) = xs.findSome? fun x => failure? (f x) := by
  induction xs with
  | nil => rfl
  | cons x xs ih =>
    rw [List.mapM_cons, failure?_both, ih, List.findSome?_cons]
    cases failure? (f x) <;> rfl

theorem mapM_eq_error_iff {f : α → Except ε β} {xs : List α} {e : ε} :
    xs.mapM f = .error e ↔ ∃ before x after, xs = before ++ x :: after ∧
      (∀ y ∈ before, ∃ b, f y = .ok b) ∧ f x = .error e := by
  rw [← failure?_eq_some_iff, failure?_mapM, List.findSome?_eq_some_iff]
  simp only [failure?_eq_some_iff, failure?_eq_none_iff, and_comm]

theorem mapM_eq_ok {f : α → Except ε β} {xs : List α} (each : ∀ x ∈ xs, ∃ b, f x = .ok b) :
    ∃ bs, xs.mapM f = .ok bs := by
  refine failure?_eq_none_iff.mp ?_
  rw [failure?_mapM, List.findSome?_eq_none_iff]
  exact fun x mem => failure?_eq_none_iff.mpr (each x mem)

theorem exists_of_mem_mapM {f : α → Except ε β} {xs : List α} {ys : List β}
    (read : xs.mapM f = .ok ys) : ∀ y ∈ ys, ∃ x ∈ xs, f x = .ok y := by
  induction xs generalizing ys with
  | nil =>
    obtain rfl : [] = ys := Except.ok.inj read
    simp
  | cons x xs ih =>
    rw [List.mapM_cons] at read
    obtain ⟨z, zs, first, later, rfl⟩ := both_eq_ok_iff.mp read
    intro y mem
    rcases List.mem_cons.mp mem with rfl | mem
    · exact ⟨x, by simp, first⟩
    · obtain ⟨w, inside, found⟩ := ih later y mem
      exact ⟨w, by simp [inside], found⟩

theorem mapM_alike {f : α → Except ε β} {key : α → γ} {xs ys : List α}
    (alike : ∀ x ∈ xs, ∀ y ∈ ys, key x = key y → f x = f y) (same : xs.map key = ys.map key) :
    xs.mapM f = ys.mapM f := by
  induction xs generalizing ys with
  | nil =>
    obtain rfl := List.map_eq_nil_iff.mp same.symm
    rfl
  | cons x xs ih =>
    obtain ⟨y, ys, rfl, first, later⟩ := List.map_eq_cons_iff.mp same.symm
    have rest := ih (fun x mem y mem' => alike x (by simp [mem]) y (by simp [mem'])) later.symm
    rw [List.mapM_cons, List.mapM_cons, alike x (by simp) y (by simp) first.symm, rest]

/-! ## Errors under another name -/

theorem mapError_eq_ok_iff {g : ε → ε'} {x : Except ε α} {a : α} :
    x.mapError g = .ok a ↔ x = .ok a := by
  cases x with
  | ok b =>
    constructor
    · intro same
      exact congrArg Except.ok (Except.ok.inj same)
    · intro same
      exact congrArg Except.ok (Except.ok.inj same)
  | error e => exact iff_of_false nofun nofun

theorem toOption_mapError {g : ε → ε'} {x : Except ε α} :
    (x.mapError g).toOption = x.toOption := by
  cases x <;> rfl

theorem mapError_bind (g : ε → ε') (x : Except ε α) (next : α → Except ε β) :
    (x >>= next).mapError g = x.mapError g >>= fun a => (next a).mapError g := by
  cases x <;> rfl

theorem foldlM_concat (step : β → α → Except ε β) (xs : List α) (x : α) (b : β) :
    (xs ++ [x]).foldlM step b = xs.foldlM step b >>= fun next => step next x := by
  rw [List.foldlM_append]
  simp only [List.foldlM_cons, List.foldlM_nil, bind_pure]

theorem foldlM_error {step : β → α → Except ε β} {xs : List α} {b : β} {e : ε}
    (failed : xs.foldlM step b = .error e) (ys : List α) :
    (xs ++ ys).foldlM step b = .error e := by
  rw [List.foldlM_append, failed]
  rfl

theorem exists_of_foldlM_error {step : β → α → Except ε β} {xs : List α} {b : β} {e : ε}
    (failed : xs.foldlM step b = .error e) : ∃ x ∈ xs, ∃ d, step d x = .error e := by
  induction xs generalizing b with
  | nil => contradiction
  | cons x xs ih =>
    rw [List.foldlM_cons] at failed
    rcases bind_fails_iff.mp failed with first | ⟨d, -, later⟩
    · exact ⟨x, by simp, b, first⟩
    · obtain ⟨y, mem, d, found⟩ := ih later
      exact ⟨y, by simp [mem], d, found⟩

theorem foldlM_mapError {f : β → β} {g : ε → ε} {step : α → β → Except ε α}
    (same : ∀ a b, step a (f b) = (step a b).mapError g) (bs : List β) (a : α) :
    (bs.map f).foldlM step a = (bs.foldlM step a).mapError g := by
  induction bs generalizing a with
  | nil => rfl
  | cons b bs ih =>
    rw [List.map_cons, List.foldlM_cons, List.foldlM_cons, mapError_bind, same]
    simp only [ih]

theorem mapM_mapError {f : β → β} {g : ε → ε} {read : β → Except ε α}
    (same : ∀ b, read (f b) = (read b).mapError g) (bs : List β) :
    (bs.map f).mapM read = (bs.mapM read).mapError g := by
  induction bs with
  | nil => rfl
  | cons b bs ih =>
    rw [List.map_cons, List.mapM_cons, List.mapM_cons, mapError_bind, same, ih]
    simp only [mapError_bind]
    rfl

end Steps

/-! ## Allowed errors -/

section Allowed
variable {ε α β : Type} {allowed : ε → Prop}

def FailsWith (allowed : ε → Prop) (x : Except ε α) : Prop := ∀ e, x = .error e → allowed e

theorem failsWith_ok (a : α) : FailsWith allowed (.ok a) := by
  intro e h
  contradiction

theorem failsWith_error {e : ε} (fits : allowed e) :
    FailsWith allowed (.error e : Except ε α) := by
  intro f h
  obtain rfl : e = f := by simpa using h
  exact fits

theorem failsWith_bind {x : Except ε α} {next : α → Except ε β} (first : FailsWith allowed x)
    (second : ∀ a, x = .ok a → FailsWith allowed (next a)) : FailsWith allowed (x >>= next) := by
  cases x with
  | error e => exact failsWith_error (first e rfl)
  | ok a => exact second a rfl

theorem failsWith_map (f : α → β) {x : Except ε α} (h : FailsWith allowed x) :
    FailsWith allowed (x.map f) := by
  cases x with
  | error e => exact failsWith_error (h e rfl)
  | ok a => exact failsWith_ok (f a)

end Allowed

end Commission
