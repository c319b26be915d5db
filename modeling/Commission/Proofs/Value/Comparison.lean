import Commission.Proofs.Number.Order
import Commission.Value
import Mathlib.Algebra.Order.Field.Basic
import Mathlib.Algebra.Order.Field.Rat

/-!
Scalars as numbers. An integer compares with a float through the double nearest to it. That is the
order of the two numbers, except where the float is this double and the integer is not.
Main statement: `compares_by_value_iff`.
-/
namespace Commission

def Binary64.rational? : Binary64 → Option ℚ
  | finite negative m => some ((signed negative m.units : ℚ) / (unitsPerOne : ℚ))
  | _ => none

namespace Binary64

theorem unitsPerOne_pos_rat : (0 : ℚ) < unitsPerOne := by
  exact_mod_cast unitsPerOne_pos

theorem rational_lt_iff (i j : Int) : (i / unitsPerOne : ℚ) < j / unitsPerOne ↔ i < j := by
  rw [div_lt_div_iff_of_pos_right unitsPerOne_pos_rat]
  exact_mod_cast Iff.rfl

theorem rational_le_iff (i j : Int) : (i / unitsPerOne : ℚ) ≤ j / unitsPerOne ↔ i ≤ j := by
  rw [← not_lt, rational_lt_iff, not_lt]

theorem int_eq_rational (n : Int) : (n : ℚ) = ((n * unitsPerOne : Int) : ℚ) / unitsPerOne := by
  rw [eq_div_iff unitsPerOne_pos_rat.ne']
  push_cast
  rfl

theorem finite_of_rational {x : Binary64} {q : ℚ} (value : x.rational? = some q) :
    ∃ negative m, x = finite negative m ∧ q = (signed negative m.units : ℚ) / unitsPerOne := by
  cases x with
  | finite negative m => exact ⟨negative, m, rfl, (Option.some.inj value).symm⟩
  | infinite negative => contradiction
  | nan => contradiction

theorem rational_of_isFinite {x : Binary64} (bounded : x.isFinite) : ∃ q, x.rational? = some q := by
  cases x with
  | finite negative m => exact ⟨_, rfl⟩
  | infinite negative => contradiction
  | nan => contradiction

theorem rational_ofInt (n : Int64) : ∃ r, (ofInt n.toInt).rational? = some r :=
  rational_of_isFinite (isFinite_ofInt n)

theorem rational_ofInt_of_small {n : Int64} (small : n.toInt.natAbs ≤ 2 ^ 53) :
    (ofInt n.toInt).rational? = some (n.toInt : ℚ) := by
  obtain ⟨r, rounded⟩ := rational_ofInt n
  obtain ⟨negative, m, nearest, number⟩ := finite_of_rational rounded
  have ordinate := ordinate_ofInt_of_small small
  rw [nearest] at ordinate
  have unrounded : signed negative m.units = n.toInt * unitsPerOne := Option.some.inj ordinate
  rw [rounded, number, unrounded, ← int_eq_rational]

/-- Rounding an integer takes it past no float. -/
theorem rational_ofInt_side (n : Int64) {x : Binary64} {r q : ℚ}
    (rounded : (ofInt n.toInt).rational? = some r) (value : x.rational? = some q) :
    ((n.toInt : ℚ) ≤ q → r ≤ q) ∧ (q ≤ (n.toInt : ℚ) → q ≤ r) := by
  obtain ⟨_, _, nearest, rfl⟩ := finite_of_rational rounded
  obtain ⟨negative, m, rfl, rfl⟩ := finite_of_rational value
  have ordinate := congrArg ordinate? nearest
  rw [int_eq_rational, rational_le_iff, rational_le_iff, rational_le_iff, rational_le_iff]
  exact ordinate_ofInt n ordinate

/-- Rounding an integer moves it against a float only by landing on this float. -/
theorem rational_ofInt_lt_iff (n : Int64) {x : Binary64} {r q : ℚ}
    (rounded : (ofInt n.toInt).rational? = some r) (value : x.rational? = some q)
    (apart : r = q → (n.toInt : ℚ) = q) :
    (r < q ↔ (n.toInt : ℚ) < q) ∧ (q < r ↔ q < (n.toInt : ℚ)) := by
  obtain ⟨le, ge⟩ := rational_ofInt_side n rounded value
  refine ⟨⟨fun less => ?_, fun less => ?_⟩, fun less => ?_, fun less => ?_⟩
  · exact lt_of_not_ge fun more => not_le.mpr less (ge more)
  · exact lt_of_le_of_ne (le less.le) fun same => less.ne (apart same)
  · exact lt_of_not_ge fun more => not_le.mpr less (le more)
  · exact lt_of_le_of_ne (ge less.le) fun same => less.ne' (apart same.symm)

theorem eq_iff_ordinate {x y : Binary64} :
    x.eq y = true ↔ ∃ i, x.ordinate? = some i ∧ y.ordinate? = some i := by
  rw [eq, compare?]
  cases x.ordinate? with
  | none => simp
  | some i =>
    cases y.ordinate? with
    | none => simp
    | some j =>
      have equal : compare i j = .eq ↔ j = i := by rw [Int.compare_eq_eq, eq_comm]
      simp [equal]

end Binary64

namespace Scalar

structure ComparesAs (a b : Scalar) (p q : ℚ) : Prop where
  eq : a.strictEq b = decide (p = q)
  gt : a.compare? .gt b = some (decide (q < p))
  ge : a.compare? .ge b = some (decide (q ≤ p))
  lt : a.compare? .lt b = some (decide (p < q))
  le : a.compare? .le b = some (decide (p ≤ q))

section
variable {a b : Scalar} {p q : ℚ}

theorem comparesAs_of_integers {i j : Int} (order : a.order? b = some (compare i j))
    (same : a.strictEq b = (compare i j == .eq)) (lt : i < j ↔ p < q) (gt : j < i ↔ q < p) :
    a.ComparesAs b p q := by
  rcases Int.lt_trichotomy i j with below | equal | above
  · have less := lt.mp below
    have ordered : compare i j = .lt := Int.compare_eq_lt.mpr below
    constructor <;> simp [same, compare?, order, ordered, less, less.le, less.ne,
      less.not_gt, less.not_ge]
  · have notLess : ¬ p < q := fun less => by have := lt.mpr less; omega
    have notMore : ¬ q < p := fun more => by have := gt.mpr more; omega
    have ordered : compare i j = .eq := Int.compare_eq_eq.mpr equal
    obtain rfl : p = q := le_antisymm (not_lt.mp notMore) (not_lt.mp notLess)
    constructor <;> simp [same, compare?, order, ordered]
  · have more := gt.mp above
    have ordered : compare i j = .gt := Int.compare_eq_gt.mpr above
    constructor <;> simp [same, compare?, order, ordered, more, more.le, more.ne',
      more.not_gt, more.not_ge]

theorem ComparesAs.congr {r s : ℚ} (compares : a.ComparesAs b r s) (lt : r < s ↔ p < q)
    (gt : s < r ↔ q < p) : a.ComparesAs b p q := by
  have le : r ≤ s ↔ p ≤ q := by rw [← not_lt, gt, not_lt]
  have ge : s ≤ r ↔ q ≤ p := by rw [← not_lt, lt, not_lt]
  have eq : r = s ↔ p = q := by rw [le_antisymm_iff, le, ge, ← le_antisymm_iff]
  constructor
  · simpa only [eq] using compares.eq
  · simpa only [gt] using compares.gt
  · simpa only [ge] using compares.ge
  · simpa only [lt] using compares.lt
  · simpa only [le] using compares.le

end

/-! ## An integer and a float -/

theorem compares_nearest (n : Int64) {x : Binary64} {r q : ℚ}
    (rounded : (Binary64.ofInt n.toInt).rational? = some r) (value : x.rational? = some q) :
    (int n).ComparesAs (float x) r q ∧ (float x).ComparesAs (int n) q r := by
  obtain ⟨sign, m, nearest, rfl⟩ := Binary64.finite_of_rational rounded
  obtain ⟨sign', m', rfl, rfl⟩ := Binary64.finite_of_rational value
  have forward : (int n).order? (float (.finite sign' m')) =
      some (compare (Binary64.signed sign m.units) (Binary64.signed sign' m'.units)) := by
    rw [order?, nearest]
    rfl
  have backward : (float (.finite sign' m')).order? (int n) =
      some (compare (Binary64.signed sign' m'.units) (Binary64.signed sign m.units)) := by
    rw [order?, nearest]
    rfl
  constructor
  · refine comparesAs_of_integers forward ?_ (Binary64.rational_lt_iff _ _).symm
      (Binary64.rational_lt_iff _ _).symm
    rw [strictEq, nearest]
    rfl
  · refine comparesAs_of_integers backward ?_ (Binary64.rational_lt_iff _ _).symm
      (Binary64.rational_lt_iff _ _).symm
    rw [strictEq, nearest]
    rfl

theorem compares_iff (n : Int64) {x : Binary64} {r q : ℚ}
    (rounded : (Binary64.ofInt n.toInt).rational? = some r) (value : x.rational? = some q) :
    ((int n).ComparesAs (float x) n.toInt q ∧ (float x).ComparesAs (int n) q n.toInt) ↔
      (r = q → (n.toInt : ℚ) = q) := by
  obtain ⟨forward, backward⟩ := compares_nearest n rounded value
  constructor
  · intro byValue landed
    have same := byValue.1.eq
    rw [forward.eq] at same
    simpa [landed] using same
  · intro apart
    obtain ⟨less, more⟩ := Binary64.rational_ofInt_lt_iff n rounded value apart
    exact ⟨forward.congr less more, backward.congr more less⟩

/-! ## Equality in a row -/

def double? : Scalar → Option Binary64
  | int n => some (Binary64.ofInt n.toInt)
  | float x => some x
  | _ => none

theorem double_of_strictEq {a b : Scalar} (same : a.strictEq b = true) :
    (∃ x y, a.double? = some x ∧ b.double? = some y ∧ x.eq y = true) ∨
      (a = b ∧ a.double? = none) := by
  cases a with
  | int n =>
    cases b with
    | int k =>
      obtain rfl : n = k := by simpa [strictEq] using same
      obtain ⟨m, rounded, -⟩ := Binary64.ofInt_eq_finite n
      refine .inl ⟨_, _, rfl, rfl, Binary64.eq_iff_ordinate.mpr ?_⟩
      rw [rounded]
      exact ⟨_, rfl, rfl⟩
    | float y => exact .inl ⟨_, _, rfl, rfl, same⟩
    | _ => contradiction
  | float x =>
    cases b with
    | int k => exact .inl ⟨_, _, rfl, rfl, same⟩
    | float y => exact .inl ⟨_, _, rfl, rfl, same⟩
    | _ => contradiction
  | bool v =>
    cases b with
    | bool w => exact .inr ⟨by simpa [strictEq] using same, rfl⟩
    | _ => contradiction
  | text s =>
    cases b with
    | text t => exact .inr ⟨by simpa [strictEq] using same, rfl⟩
    | _ => contradiction

theorem strictEq_of_double {a b : Scalar} {x y : Binary64} (left : a.double? = some x)
    (right : b.double? = some y) (same : x.eq y = true) :
    a.strictEq b = true ↔ ∀ m n, a = int m → b = int n → m = n := by
  cases a with
  | int n =>
    obtain rfl := Option.some.inj left
    cases b with
    | int k => simp [strictEq]
    | float y =>
      obtain rfl := Option.some.inj right
      simpa [strictEq] using same
    | _ => contradiction
  | float x =>
    obtain rfl := Option.some.inj left
    cases b with
    | int k =>
      obtain rfl := Option.some.inj right
      simpa [strictEq] using same
    | float y =>
      obtain rfl := Option.some.inj right
      simpa [strictEq] using same
    | _ => contradiction
  | _ => contradiction

theorem strictEq_trans_iff {a b c : Scalar} (first : a.strictEq b = true)
    (second : b.strictEq c = true) :
    a.strictEq c = true ↔ ∀ m n, a = int m → c = int n → m = n := by
  rcases double_of_strictEq first with ⟨x, y, left, middle, same⟩ | ⟨rfl, other⟩
  · rcases double_of_strictEq second with ⟨y', z, middle', right, same'⟩ | ⟨rfl, other⟩
    · obtain rfl := Option.some.inj (middle.symm.trans middle')
      obtain ⟨i, ordinate, ordinate'⟩ := Binary64.eq_iff_ordinate.mp same
      obtain ⟨j, ordinate'', last⟩ := Binary64.eq_iff_ordinate.mp same'
      obtain rfl := Option.some.inj (ordinate'.symm.trans ordinate'')
      exact strictEq_of_double left right (Binary64.eq_iff_ordinate.mpr ⟨i, ordinate, last⟩)
    · rw [other] at middle
      contradiction
  · refine iff_of_true second fun m n isInt => ?_
    rw [isInt] at other
    contradiction

/-! ## Main statement -/

/-- An integer and a finite float compare like the double nearest to the integer and the float.
    This is their order as numbers exactly if the float is not this double or equals the integer,
    so always for integers of up to 53 bits. Equality carries over from scalar to scalar, except
    between two different integers. -/
theorem compares_by_value_iff (n : Int64) {x : Binary64} (bounded : x.isFinite) :
    (∃ q r, x.rational? = some q ∧ (Binary64.ofInt n.toInt).rational? = some r ∧
      (n.toInt.natAbs ≤ 2 ^ 53 → r = n.toInt) ∧
      (int n).ComparesAs (float x) r q ∧ (float x).ComparesAs (int n) q r ∧
      (((int n).ComparesAs (float x) n.toInt q ∧ (float x).ComparesAs (int n) q n.toInt) ↔
        (r = q → (n.toInt : ℚ) = q))) ∧
    ∀ a b c : Scalar, a.strictEq b = true → b.strictEq c = true →
      (a.strictEq c = true ↔ ∀ m n, a = int m → c = int n → m = n) := by
  obtain ⟨q, value⟩ := Binary64.rational_of_isFinite bounded
  obtain ⟨r, rounded⟩ := Binary64.rational_ofInt n
  obtain ⟨forward, backward⟩ := compares_nearest n rounded value
  refine ⟨⟨q, r, value, rounded, fun small => ?_, forward, backward,
    compares_iff n rounded value⟩, fun a b c first second => strictEq_trans_iff first second⟩
  exact Option.some.inj (rounded.symm.trans (Binary64.rational_ofInt_of_small small))

theorem rational_two_pow_53 :
    (Binary64.ofInt 9007199254740992).rational? = some 9007199254740992 :=
  Binary64.rational_ofInt_of_small (n := 9007199254740992) (by decide)

/-- Five is ordered as a number against 2^53, and 2^53 stands between two integers equal to it. -/
theorem compares_by_value_iff_at_two_pow_53 :
    (Binary64.ofInt 9007199254740992).isFinite ∧
    ((int 5).ComparesAs (float (Binary64.ofInt 9007199254740992)) 5 9007199254740992 ∧
      (float (Binary64.ofInt 9007199254740992)).ComparesAs (int 5) 9007199254740992 5) ∧
    (int 9007199254740993).strictEq (float (Binary64.ofInt 9007199254740992)) = true ∧
    (float (Binary64.ofInt 9007199254740992)).strictEq (int 9007199254740992) = true ∧
    ((int 9007199254740993).strictEq (int 9007199254740992) = true ↔
      ∀ m n, int 9007199254740993 = int m → int 9007199254740992 = int n → m = n) := by
  have upper :
      (int 9007199254740993).strictEq (float (Binary64.ofInt 9007199254740992)) = true := by
    decide +kernel
  have lower :
      (float (Binary64.ofInt 9007199254740992)).strictEq (int 9007199254740992) = true := by
    decide +kernel
  have bounded : (Binary64.ofInt 9007199254740992).isFinite := by decide +kernel
  obtain ⟨⟨q, r, value, -, unrounded, forward, backward, -⟩, chain⟩ :=
    compares_by_value_iff 5 bounded
  obtain rfl : q = 9007199254740992 := Option.some.inj (value.symm.trans rational_two_pow_53)
  obtain rfl : r = 5 := unrounded (by decide)
  exact ⟨bounded, ⟨forward, backward⟩, upper, lower, chain _ _ _ upper lower⟩

/-- The integer after 2^53 is equal to the float 2^53. -/
theorem not_compares_by_value :
    ¬ ∀ (n : Int64) (x : Binary64) (q : ℚ), x.rational? = some q →
      ((int n).strictEq (float x) = true ↔ (n.toInt : ℚ) = q) := by
  intro byValue
  have same := byValue 9007199254740993 _ _ rational_two_pow_53
  have equal :
      (int 9007199254740993).strictEq (float (Binary64.ofInt 9007199254740992)) = true := by
    decide +kernel
  have number : (9007199254740993 : ℚ) = 9007199254740992 := same.mp equal
  norm_num at number

end Scalar

end Commission
