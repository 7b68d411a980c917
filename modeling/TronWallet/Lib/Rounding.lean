import Mathlib.Data.Rat.Floor

/-!
# From rational numbers to whole ones

The two ways a program goes from an exact number to a whole one: `truncate` drops what
follows the point, as a conversion does, and `nearest` takes the nearest number, the even
one of two, as printing does.  Both leave a whole number as it is.
-/

set_option autoImplicit false

namespace TronWallet.Lib.Rounding

/-- Toward zero. -/
def truncate (q : ℚ) : ℤ := q.num.tdiv q.den

/-- The nearest whole number; halfway between two, the even one. -/
def nearest (q : ℚ) : ℤ :=
  if q - q.floor < 1 / 2 then q.floor
  else if 1 / 2 < q - q.floor then q.floor + 1
  else if q.floor % 2 = 0 then q.floor else q.floor + 1

/-- A whole number is not changed by cutting. -/
@[simp] theorem truncate_intCast (n : ℤ) : truncate n = n := by
  unfold truncate
  rw [Rat.num_intCast, Rat.den_intCast, Nat.cast_one, Int.tdiv_one]

/-- A whole number is the whole number nearest to it. -/
@[simp] theorem nearest_intCast (n : ℤ) : nearest n = n := by
  unfold nearest
  rw [Rat.floor_intCast, sub_self, if_pos (by norm_num)]

/-- Truncating a number that is not negative gives its floor. -/
theorem truncate_eq_floor {q : ℚ} (h : 0 ≤ q) : truncate q = ⌊q⌋ := by
  unfold truncate
  rw [Rat.floor_def', Int.tdiv_eq_ediv_of_nonneg (Rat.num_nonneg.mpr h)]

end TronWallet.Lib.Rounding
