import Mathlib.Data.Int.Log
import Mathlib.Tactic.GCongr
import OcrSuite.Rounding

/-! Numbers with a given number of significant bits, products and quotients of which are rounded to the
nearest of them, and arithmetic that may be exact or rounded. -/
namespace OcrSuite

namespace Rounding

/-- Of two integers that are equally near the even one. -/
def nearestEven (x : ℚ) : ℤ :=
  if Int.fract x = 1 / 2 then ⌊x⌋ + ⌊x⌋ % 2 else round x

/-- The unit in the last place of the significand, which has `bits` bits after the first. -/
def lastPlace (bits : ℕ) (x : ℚ) : ℚ := 2 ^ (Int.log 2 |x| - bits)

def toSignificand (bits : ℕ) (x : ℚ) : ℚ := nearestEven (x / lastPlace bits x) * lastPlace bits x

/-- A significand of `bits` bits after the first, and an exponent of any size. -/
def HasSignificand (bits : ℕ) (x : ℚ) : Prop := ∃ m e : ℤ, |m| < 2 ^ (bits + 1) ∧ x = m * 2 ^ e

theorem nearest_nearestEven (x : ℚ) : Nearest x (nearestEven x) := by
  unfold nearestEven
  split
  case isFalse => exact nearest_round x
  case isTrue half =>
    have parts := Int.floor_add_fract x
    rw [half] at parts
    rw [nearest_iff]
    rcases Int.emod_two_eq_zero_or_one ⌊x⌋ with even | odd
    · rw [even]
      push_cast
      constructor <;> linarith
    · rw [odd]
      push_cast
      constructor <;> linarith

theorem nearestEven_mono {x y : ℚ} (le : x ≤ y) : nearestEven x ≤ nearestEven y := by
  by_contra reversed
  have first := nearest_iff.mp (nearest_nearestEven x)
  have second := nearest_iff.mp (nearest_nearestEven y)
  have apart : (nearestEven y : ℚ) + 1 ≤ nearestEven x := by
    have less : nearestEven y + 1 ≤ nearestEven x := by omega
    exact_mod_cast less
  have same : x = y := by linarith
  exact reversed (same ▸ le_rfl)

theorem nearestEven_intCast (n : ℤ) : nearestEven n = n := by
  have near := nearest_iff.mp (nearest_nearestEven n)
  have above : (nearestEven n : ℚ) < ((n + 1 : ℤ) : ℚ) := by
    push_cast
    linarith
  have below : ((n - 1 : ℤ) : ℚ) < (nearestEven n : ℚ) := by
    push_cast
    linarith
  have above := Int.cast_lt.mp above
  have below := Int.cast_lt.mp below
  omega

theorem lastPlace_pos (bits : ℕ) (x : ℚ) : 0 < lastPlace bits x := zpow_pos two_pos _

theorem lastPlace_mul_le (bits : ℕ) {x : ℚ} (nonzero : x ≠ 0) : lastPlace bits x * 2 ^ bits ≤ |x| := by
  have leading := Int.zpow_log_le_self (R := ℚ) one_lt_two (abs_pos.mpr nonzero)
  rw [lastPlace,zpow_sub₀ two_ne_zero,zpow_natCast,div_mul_cancel₀ _ (by positivity)]
  exact_mod_cast leading

theorem abs_lt_lastPlace_mul (bits : ℕ) (x : ℚ) : |x| < lastPlace bits x * 2 ^ (bits + 1) := by
  have leading := Int.lt_zpow_succ_log_self (R := ℚ) one_lt_two |x|
  have place : lastPlace bits x * 2 ^ (bits + 1) = 2 ^ (Int.log 2 |x| + 1) := by
    rw [lastPlace,pow_succ,← mul_assoc,zpow_sub₀ two_ne_zero,zpow_natCast,div_mul_cancel₀ _ (by positivity),
      zpow_add_one₀ two_ne_zero]
  rw [place]
  exact_mod_cast leading

/-- What is rounded differs from what it is rounded from by half a unit in the last place. -/
theorem abs_toSignificand_sub_le (bits : ℕ) (x : ℚ) : |toSignificand bits x - x| ≤ 1 / 2 ^ (bits + 1) * |x| := by
  rcases eq_or_ne x 0 with rfl | nonzero
  · simp [toSignificand,nearestEven]
  have positive := lastPlace_pos bits x
  have half := nearest_nearestEven (x / lastPlace bits x)
  have scaled : toSignificand bits x - x =
      (nearestEven (x / lastPlace bits x) - x / lastPlace bits x) * lastPlace bits x := by
    rw [sub_mul,div_mul_cancel₀ _ positive.ne',toSignificand]
  calc |toSignificand bits x - x|
      = |(nearestEven (x / lastPlace bits x) : ℚ) - x / lastPlace bits x| * lastPlace bits x := by
        rw [scaled,abs_mul,abs_of_pos positive]
    _ ≤ 1 / 2 * lastPlace bits x := mul_le_mul_of_nonneg_right half positive.le
    _ ≤ 1 / 2 ^ (bits + 1) * |x| := by
        rw [one_div_mul_eq_div _ |x|,le_div_iff₀ (by positivity),pow_succ]
        linarith [lastPlace_mul_le bits nonzero]

theorem toSignificand_hasSignificand (bits : ℕ) (x : ℚ) : HasSignificand bits (toSignificand bits x) := by
  have positive := lastPlace_pos bits x
  set m := nearestEven (x / lastPlace bits x) with rounded
  have short : |x / lastPlace bits x| < 2 ^ (bits + 1) := by
    rw [abs_div,abs_of_pos positive,div_lt_iff₀ positive,mul_comm]
    exact abs_lt_lastPlace_mul bits x
  obtain ⟨lower,upper⟩ := abs_lt.mp short
  have above : m ≤ 2 ^ (bits + 1) := by
    rw [← nearestEven_intCast (2 ^ (bits + 1)),rounded]
    exact nearestEven_mono (by push_cast; exact upper.le)
  have below : -2 ^ (bits + 1) ≤ m := by
    rw [← nearestEven_intCast (-2 ^ (bits + 1)),rounded]
    exact nearestEven_mono (by push_cast; exact lower.le)
  have bound : |m| ≤ 2 ^ (bits + 1) := abs_le.mpr ⟨below,above⟩
  rcases lt_or_eq_of_le bound with less | full
  · exact ⟨m,_,less,rfl⟩
  · -- rounded up to the next power of two
    have half : ∃ k : ℤ, m = k * 2 ∧ |k| < 2 ^ (bits + 1) := by
      have small : (1 : ℤ) ≤ 2 ^ bits := one_le_pow₀ (by norm_num)
      have double : (2 : ℤ) ^ (bits + 1) = 2 ^ bits * 2 := pow_succ _ _
      rcases abs_eq (by positivity) |>.mp full with up | down
      · exact ⟨2 ^ bits,by omega,by rw [abs_of_pos (by omega)]; omega⟩
      · exact ⟨-2 ^ bits,by omega,by rw [abs_neg,abs_of_pos (by omega)]; omega⟩
    obtain ⟨k,twice,less⟩ := half
    refine ⟨k,Int.log 2 |x| - bits + 1,less,?_⟩
    rw [zpow_add_one₀ two_ne_zero]
    change (m : ℚ) * lastPlace bits x = _
    rw [twice,lastPlace]
    push_cast
    ring

theorem le_toSignificand (bits : ℕ) (n : ℤ) {x : ℚ} (le : n * lastPlace bits x ≤ x) :
    n * lastPlace bits x ≤ toSignificand bits x := by
  have positive := lastPlace_pos bits x
  have scaled := nearestEven_mono ((le_div_iff₀ positive).mpr le)
  rw [nearestEven_intCast] at scaled
  exact mul_le_mul_of_nonneg_right (Int.cast_le.mpr scaled) positive.le

theorem toSignificand_le (bits : ℕ) (n : ℤ) {x : ℚ} (le : x ≤ n * lastPlace bits x) :
    toSignificand bits x ≤ n * lastPlace bits x := by
  have positive := lastPlace_pos bits x
  have scaled := nearestEven_mono ((div_le_iff₀ positive).mpr le)
  rw [nearestEven_intCast] at scaled
  exact mul_le_mul_of_nonneg_right (Int.cast_le.mpr scaled) positive.le

/-- Numbers with fewer digits before the point. -/
theorem lastPlace_le (bits : ℕ) {x y : ℚ} (less : Int.log 2 |x| < Int.log 2 |y|) :
    lastPlace bits x * 2 ^ (bits + 1) ≤ lastPlace bits y * 2 ^ bits := by
  have place : lastPlace bits x * 2 ≤ lastPlace bits y := by
    rw [lastPlace,lastPlace,← zpow_add_one₀ two_ne_zero]
    exact zpow_le_zpow_right₀ one_le_two (by omega)
  calc lastPlace bits x * 2 ^ (bits + 1) = lastPlace bits x * 2 * 2 ^ bits := by ring
    _ ≤ lastPlace bits y * 2 ^ bits := by gcongr

theorem toSignificand_mono (bits : ℕ) : Monotone (toSignificand bits) := by
  have equal {x y : ℚ} (le : x ≤ y) (logs : Int.log 2 |x| = Int.log 2 |y|) :
      toSignificand bits x ≤ toSignificand bits y := by
    have positive := lastPlace_pos bits y
    have places : lastPlace bits x = lastPlace bits y := by rw [lastPlace,lastPlace,logs]
    rw [toSignificand,toSignificand,places]
    gcongr
    exact nearestEven_mono (by gcongr)
  intro x y le
  rcases le_or_gt x 0 with down | positive
  · rcases le_or_gt 0 y with up | negative
    · have below := toSignificand_le bits 0 (by simpa using down)
      have above := le_toSignificand bits 0 (by simpa using up)
      simp only [Int.cast_zero,zero_mul] at below above
      exact below.trans above
    · have sizes : |y| ≤ |x| := by rw [abs_of_neg negative,abs_of_nonpos down]; linarith
      rcases (Int.log_mono_right (b := 2) (abs_pos.mpr negative.ne) sizes).lt_or_eq with less | same
      · have far := lastPlace_mul_le bits (le.trans_lt negative).ne
        have near := abs_lt_lastPlace_mul bits y
        rw [abs_of_nonpos down] at far
        rw [abs_of_neg negative] at near
        have below := toSignificand_le bits (-2 ^ bits) (x := x) (by push_cast; linarith)
        have above := le_toSignificand bits (-2 ^ (bits + 1)) (x := y) (by push_cast; linarith)
        have apart := lastPlace_le bits less
        push_cast at below above
        linarith
      · exact equal le same.symm
  · have sizes : |x| ≤ |y| := by rw [abs_of_pos positive,abs_of_pos (positive.trans_le le)]; exact le
    rcases (Int.log_mono_right (b := 2) (abs_pos.mpr positive.ne') sizes).lt_or_eq with less | same
    · have far := lastPlace_mul_le bits (positive.trans_le le).ne'
      have near := abs_lt_lastPlace_mul bits x
      rw [abs_of_pos (positive.trans_le le)] at far
      rw [abs_of_pos positive] at near
      have below := toSignificand_le bits (2 ^ (bits + 1)) (x := x) (by push_cast; linarith)
      have above := le_toSignificand bits (2 ^ bits) (x := y) (by push_cast; linarith)
      have apart := lastPlace_le bits less
      push_cast at below above
      linarith
    · exact equal le same

end Rounding

open Rounding

/-- What can be computed with times and rates. -/
class Arithmetic (V : Type) [Mul V] [Div V] [IntCast V] where
  value : V → ℚ

open Arithmetic (value)

/-- A cast to an integer. -/
def truncate {V : Type} [Mul V] [Div V] [IntCast V] [Arithmetic V] (x : V) : ℤ := trunc (value x)

/-- Every operation differs from the exact one by `u` of its result at most. -/
class Approximates (V : Type) [Mul V] [Div V] [IntCast V] [Arithmetic V] (u : outParam ℚ) : Prop where
  small : 0 ≤ u ∧ u < 1
  intCast : ∀ n : ℤ, |value (n : V) - n| ≤ u * |(n : ℚ)|
  mul : ∀ x y : V, |value (x * y) - value x * value y| ≤ u * |value x * value y|
  div : ∀ x y : V, |value (x / y) - value x / value y| ≤ u * |value x / value y|

instance : Arithmetic ℚ where
  value := id

instance : Approximates ℚ 0 where
  small := ⟨le_rfl,one_pos⟩
  intCast n := by simp [value]
  mul x y := by simp [value]
  div x y := by simp [value]

/-- A number that is 0 or has a significand of `bits` bits after the first. The exponents are not bounded. -/
structure Rounded (bits : ℕ) where
  value : ℚ
  hasSignificand : HasSignificand bits value
  deriving DecidableEq

namespace Rounded

variable {bits : ℕ}

def of (bits : ℕ) (x : ℚ) : Rounded bits := ⟨toSignificand bits x,toSignificand_hasSignificand bits x⟩

instance : Mul (Rounded bits) where
  mul x y := of bits (x.value * y.value)

instance : Div (Rounded bits) where
  div x y := of bits (x.value / y.value)

instance : IntCast (Rounded bits) where
  intCast n := of bits n

instance : Arithmetic (Rounded bits) where
  value := Rounded.value

instance : Approximates (Rounded bits) (1 / 2 ^ (bits + 1)) where
  small := ⟨by positivity,by
    rw [div_lt_one (by positivity)]
    exact one_lt_pow₀ one_lt_two (Nat.succ_ne_zero bits)⟩
  intCast n := abs_toSignificand_sub_le bits n
  mul x y := abs_toSignificand_sub_le bits (x.value * y.value)
  div x y := abs_toSignificand_sub_le bits (x.value / y.value)

end Rounded

/-- A double, as long as no exponent is too large or too small for one. -/
abbrev Binary64 := Rounded 52

/-! ## Signs and bounds of what is approximated -/

namespace Approximates

variable {u a b : ℚ}

theorem nonneg (small : u < 1) (near : |a - b| ≤ u * |b|) (sign : 0 ≤ b) : 0 ≤ a := by
  have lower := (abs_le.mp near).1
  rw [abs_of_nonneg sign] at lower
  nlinarith

theorem nonpos (small : u < 1) (near : |a - b| ≤ u * |b|) (sign : b ≤ 0) : a ≤ 0 := by
  have upper := (abs_le.mp near).2
  rw [abs_of_nonpos sign] at upper
  nlinarith

theorem le_mul (near : |a - b| ≤ u * |b|) (sign : 0 ≤ b) : a ≤ b * (1 + u) := by
  have upper := (abs_le.mp near).2
  rw [abs_of_nonneg sign] at upper
  linarith

theorem mul_le (near : |a - b| ≤ u * |b|) (sign : 0 ≤ b) : b * (1 - u) ≤ a := by
  have lower := (abs_le.mp near).1
  rw [abs_of_nonneg sign] at lower
  linarith

end Approximates

end OcrSuite
