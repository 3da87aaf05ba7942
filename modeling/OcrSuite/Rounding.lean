import Mathlib.Algebra.Order.Round
import Mathlib.Data.Rat.Floor
import Mathlib.Tactic.FieldSimp
import Mathlib.Tactic.Linarith
import Mathlib.Tactic.LinearCombination
import Mathlib.Tactic.Positivity
import Mathlib.Tactic.Ring

/-! Truncation of a quotient toward zero, integers nearest to a number, and the multiples of a
number that lie above the integer they are rounded to. -/
namespace OcrSuite.Rounding

variable {α : Type*} [Field α] [LinearOrder α] [FloorRing α]

/-- Conversion to an integer as a cast does it. -/
def trunc (x : α) : ℤ := if 0 ≤ x then ⌊x⌋ else ⌈x⌉

/-- Either integer will do where two of them are equally near. -/
def Nearest (x : α) (n : ℤ) : Prop := |(n : α) - x| ≤ 1 / 2

variable {x : α} {n : ℤ}

theorem trunc_of_nonneg (nonneg : 0 ≤ x) : trunc x = ⌊x⌋ := if_pos nonneg

theorem le_trunc_iff (nonneg : 0 ≤ x) : n ≤ trunc x ↔ (n : α) ≤ x := by
  rw [trunc_of_nonneg nonneg,Int.le_floor]

/-- Above zero nothing is truncated from below. -/
theorem le_of_le_trunc (positive : 0 < n) (le : n ≤ trunc x) : (n : α) ≤ x := by
  rcases le_or_gt 0 x with nonneg | negative
  · exact (le_trunc_iff nonneg).mp le
  · have truncated : trunc x ≤ 0 := by
      rw [trunc,if_neg (not_le.mpr negative),Int.ceil_le]
      exact_mod_cast negative.le
    omega

variable [IsStrictOrderedRing α]

omit [FloorRing α] in
theorem nearest_iff : Nearest x n ↔ x - 1 / 2 ≤ n ∧ (n : α) ≤ x + 1 / 2 := by
  unfold Nearest
  rw [abs_le]
  constructor
  · rintro ⟨lower,upper⟩
    constructor <;> linarith
  · rintro ⟨lower,upper⟩
    constructor <;> linarith

theorem nearest_round (x : α) : Nearest x (round x) := by
  unfold Nearest
  rw [abs_sub_comm]
  exact abs_sub_round x

omit [FloorRing α] in
/-- Nothing that is not negative is rounded to a negative integer. -/
theorem Nearest.nonneg (near : Nearest x n) (nonneg : 0 ≤ x) : 0 ≤ n := by
  have above : (-1 : α) < n := by
    have := (nearest_iff.mp near).1
    linarith
  have : (-1 : ℤ) < n := by exact_mod_cast above
  omega

/-- Where the number is below its half, it is rounded down. -/
theorem round_lt_iff (x : α) : (round x : α) < x ↔ 0 < Int.fract x ∧ Int.fract x < 1 / 2 := by
  have parts := Int.floor_add_fract x
  have proper := Int.fract_lt_one x
  have nonneg := Int.fract_nonneg x
  rcases lt_or_ge (Int.fract x) (1 / 2) with low | high
  · have down : round x = ⌊x⌋ := by
      rw [round_eq_iff]
      constructor <;> linarith
    rw [down]
    constructor
    · exact fun below => ⟨by linarith,low⟩
    · exact fun _ => by linarith
  · have up : round x = ⌊x⌋ + 1 := by
      rw [round_eq_iff]
      push_cast
      constructor <;> linarith
    rw [up]
    push_cast
    constructor
    · intro below
      linarith
    · rintro ⟨_,low⟩
      linarith

/-- A number that is no multiple of a half has a multiple that is rounded down. -/
theorem exists_mul_rounded_down (odd : ∀ m : ℤ, 2 * x ≠ m) :
    ∃ k : ℕ, (round (k * x) : α) < k * x := by
  have parts := Int.floor_add_fract x
  have positive : 0 < Int.fract x := by
    refine lt_of_le_of_ne (Int.fract_nonneg x) fun zero => odd (2 * ⌊x⌋) ?_
    push_cast
    linarith
  have notHalf : Int.fract x ≠ 1 / 2 := fun half => odd (2 * ⌊x⌋ + 1) (by push_cast; linarith)
  rcases lt_or_gt_of_ne notHalf with low | high
  · exact ⟨1,by simpa using (round_lt_iff x).mpr ⟨positive,low⟩⟩
  · -- the fractional parts fall by `gap` from one multiple to the next
    set gap := 1 - Int.fract x with gap_eq
    have gapPos : 0 < gap := by
      have := Int.fract_lt_one x
      linarith
    have gapLow : gap < 1 / 2 := by linarith
    obtain ⟨k,steps⟩ : ∃ k : ℕ, 1 / 2 < k * gap ∧ k * gap < 1 := by
      refine ⟨⌊1 / (2 * gap)⌋₊ + 1,?_,?_⟩
      · have := Nat.lt_floor_add_one (1 / (2 * gap))
        rw [div_lt_iff₀ (by positivity)] at this
        push_cast
        linarith
      · have := Nat.floor_le (a := 1 / (2 * gap)) (by positivity)
        rw [le_div_iff₀ (by positivity)] at this
        push_cast
        linarith
    refine ⟨k,(round_lt_iff _).mpr ?_⟩
    have fraction : Int.fract (k * x) = 1 - k * gap := by
      rw [Int.fract_eq_iff]
      refine ⟨by linarith,by linarith,k * ⌊x⌋ + k - 1,?_⟩
      push_cast
      linear_combination (-(k : α)) * parts + (k : α) * gap_eq
    rw [fraction]
    constructor <;> linarith

/-- The rate at which no multiple is rounded down: half an integer. -/
theorem forall_mul_le_round_iff :
    (∀ k : ℕ, k * x ≤ round (k * x)) ↔ ∃ m : ℤ, 2 * x = m := by
  constructor
  · intro up
    by_contra none
    obtain ⟨k,down⟩ := exists_mul_rounded_down fun m same => none ⟨m,same⟩
    exact absurd (up k) (not_le.mpr down)
  · rintro ⟨m,half⟩ k
    by_contra down
    obtain ⟨positive,low⟩ := (round_lt_iff (k * x)).mp (not_le.mp down)
    have parts := Int.floor_add_fract ((k : α) * x)
    have twice : 2 * Int.fract (k * x) = ((k * m - 2 * ⌊(k : α) * x⌋ : ℤ) : α) := by
      push_cast
      linear_combination (k : α) * half + 2 * parts
    have above : (0 : ℤ) < k * m - 2 * ⌊(k : α) * x⌋ := by
      have : (0 : α) < ((k * m - 2 * ⌊(k : α) * x⌋ : ℤ) : α) := by linarith
      exact_mod_cast this
    have below : k * m - 2 * ⌊(k : α) * x⌋ < (1 : ℤ) := by
      have : ((k * m - 2 * ⌊(k : α) * x⌋ : ℤ) : α) < 1 := by linarith
      exact_mod_cast this
    omega

end OcrSuite.Rounding
