import Mathlib.Algebra.BigOperators.Group.List.Basic
import Mathlib.Tactic.Ring

/-!
# Integers of a fixed width

A signed integer of `w` bits holds the representative of a number modulo `2 ^ w` that lies
in `[-2 ^ (w - 1), 2 ^ (w - 1))`: `wrap w`.  A number of that range is held exactly, and
an accumulator that wraps at every addition holds in the end the wrapped sum, whatever its
partial sums have done (`foldl_wrap`).  Wrapping never makes a number larger that is not
negative, so a sum that wraps can only look smaller than it is.

A number can be read into a fixed width without ever leaving it: `exceeds_iff` is the check
that is made before each digit.
-/

set_option autoImplicit false

namespace TronWallet.Lib.FixedWidth

/-- The numbers a signed integer of `w` bits can hold. -/
def Fits (w : ℕ) (n : ℤ) : Prop := -2 ^ (w - 1) ≤ n ∧ n < 2 ^ (w - 1)

instance (w : ℕ) (n : ℤ) : Decidable (Fits w n) := by
  unfold Fits
  infer_instance

/-- What a signed integer of `w` bits holds of a number. -/
def wrap (w : ℕ) (n : ℤ) : ℤ := Int.bmod n (2 ^ w)

variable {w : ℕ}

/-- Half of the numbers there are. -/
theorem two_mul_half (hw : 0 < w) : 2 * (2 : ℤ) ^ (w - 1) = 2 ^ w := by
  obtain ⟨v, rfl⟩ := Nat.exists_eq_succ_of_ne_zero hw.ne'
  rw [Nat.succ_sub_one, Nat.succ_eq_add_one, pow_succ']

/-- A number that is not negative has only the upper bound to meet. -/
theorem fits_iff_of_nonneg {n : ℤ} (h : 0 ≤ n) : Fits w n ↔ n < 2 ^ (w - 1) := by
  have hpow : (0 : ℤ) < 2 ^ (w - 1) := Int.pow_pos (by decide)
  unfold Fits
  exact and_iff_right (by omega)

/-- A number in range is held exactly. -/
theorem wrap_of_fits (hw : 0 < w) {n : ℤ} (h : Fits w n) : wrap w n = n := by
  obtain ⟨hlow, hhigh⟩ := h
  have hhalf := two_mul_half hw
  unfold wrap
  apply Int.bmod_eq_of_le_mul_two
  · push_cast
    omega
  · push_cast
    omega

/-- What is held is in range. -/
theorem fits_wrap (hw : 0 < w) (n : ℤ) : Fits w (wrap w n) := by
  have hhalf := two_mul_half hw
  have hpos : 0 < 2 ^ w := Nat.two_pow_pos w
  have hlow := Int.le_bmod (x := n) hpos
  have hhigh := Int.bmod_lt (x := n) hpos
  push_cast at hlow hhigh
  unfold Fits wrap
  constructor <;> omega

/-- Adding to what is held. -/
@[simp] theorem wrap_wrap_add (a b : ℤ) : wrap w (wrap w a + b) = wrap w (a + b) :=
  Int.bmod_add_bmod

/-- Wrapping to a smaller width after a larger one is wrapping to the smaller one. -/
theorem wrap_wrap_of_le {v : ℕ} (h : v ≤ w) (n : ℤ) : wrap v (wrap w n) = wrap v n :=
  Int.bmod_bmod_of_dvd (Nat.pow_dvd_pow 2 h)

/-- Wrapping makes no number larger that is not negative. -/
theorem wrap_le {n : ℤ} (h : 0 ≤ n) : wrap w n ≤ n := by
  have hpos : (0 : ℤ) < (2 ^ w : ℕ) := by exact_mod_cast Nat.two_pow_pos w
  have hquotient : 0 ≤ (2 ^ w : ℕ) * (n / (2 ^ w : ℕ)) :=
    Int.mul_nonneg hpos.le (Int.ediv_nonneg h hpos.le)
  have hdiv := Int.emod_add_mul_ediv n (2 ^ w : ℕ)
  have hrem : n % (2 ^ w : ℕ) ≤ n := by omega
  unfold wrap
  rw [Int.bmod_def]
  split <;> omega

/-- **An accumulator that wraps holds the wrapped sum.** -/
theorem foldl_wrap (l : List ℤ) (a : ℤ) :
    l.foldl (fun s x => wrap w (s + x)) (wrap w a) = wrap w (a + l.sum) := by
  induction l generalizing a with
  | nil => rw [List.foldl_nil, List.sum_nil, add_zero]
  | cons x l ih => rw [List.foldl_cons, wrap_wrap_add, ih, List.sum_cons, add_assoc]

/-- When the sum is in range the accumulator holds the sum. -/
theorem foldl_wrap_of_fits (hw : 0 < w) {l : List ℤ} (h : Fits w l.sum) :
    l.foldl (fun s x => wrap w (s + x)) 0 = l.sum := by
  have hzero : wrap w 0 = 0 := Int.zero_bmod
  have hfold := foldl_wrap (w := w) l 0
  rw [hzero, zero_add] at hfold
  rw [hfold, wrap_of_fits hw h]

/-- Before a digit is appended, comparing the value with the quotient of the bound and the digit
with its remainder tells whether the next value exceeds the bound. -/
theorem exceeds_iff {max base v d : ℤ} (hmax : 0 ≤ max) (hbase : 0 < base) (hd : 0 ≤ d)
    (hlt : d < base) :
    (max.tdiv base < v ∨ v = max.tdiv base ∧ max.tmod base < d) ↔ max < v * base + d := by
  rw [Int.tdiv_eq_ediv_of_nonneg hmax, Int.tmod_eq_emod_of_nonneg hmax]
  have hdiv := Int.mul_ediv_add_emod max base
  have hrem := Int.emod_nonneg max hbase.ne'
  have hrem' := Int.emod_lt_of_pos max hbase
  constructor
  · rintro (h | ⟨rfl, h⟩)
    · have hstep : (max / base + 1) * base ≤ v * base :=
        Int.mul_le_mul_of_nonneg_right h hbase.le
      rw [add_mul, mul_comm, one_mul] at hstep
      omega
    · rw [mul_comm]
      omega
  · intro h
    rcases lt_trichotomy (max / base) v with hv | hv | hv
    · exact Or.inl hv
    · refine Or.inr ⟨hv.symm, ?_⟩
      rw [← hv, mul_comm] at h
      omega
    · have hstep : (v + 1) * base ≤ max / base * base :=
        Int.mul_le_mul_of_nonneg_right hv hbase.le
      rw [add_mul, one_mul, mul_comm (max / base)] at hstep
      omega

end TronWallet.Lib.FixedWidth
