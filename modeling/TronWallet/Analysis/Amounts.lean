import TronWallet.Model.AccountForms

/-!
# Drops from whole numbers

A `double` holds every whole number below `2 ^ 53` and multiplies without error as long as
the product is one of them.  This is all the forms need where whole TRX are turned into
drops, so it is a hypothesis of its own about the arithmetic.
-/

set_option autoImplicit false

namespace TronWallet.Analysis

open TronWallet.Lib.FixedWidth TronWallet.Model

/-- Products of whole numbers are exact below `2 ^ 53`. -/
structure ExactProducts (D : Doubles) : Prop where
  exact : ∀ a b : ℤ, Fits 64 a → Fits 64 b → |a * b| < 2 ^ 53 →
    D.toInt64 (D.mul (D.ofInt a) (D.ofInt b)) = a * b

/-- The drops of a whole number of TRX are exact below `2 ^ 53`. -/
theorem toDrop_ofInt {D : Doubles} (hD : ExactProducts D) {n : ℤ}
    (hlow : -2 ^ 53 < n * trxDropRate) (hhigh : n * trxDropRate < 2 ^ 53) :
    toDrop D (D.ofInt n) = n * trxDropRate := by
  have hrate : trxDropRate = 1000000 := rfl
  have hfits : Fits 64 n := by
    rw [hrate] at hlow hhigh
    unfold Fits
    omega
  exact hD.exact n trxDropRate hfits (by decide) (abs_lt.mpr ⟨hlow, hhigh⟩)

/-- The power of an account is what is frozen, unless 64 bits do not hold it. -/
theorem calcTronPower_of_fits {a : FormAccount} (h : Fits 64 a.frozen.sum) :
    calcTronPower a = a.frozen.sum := foldl_wrap_of_fits (by omega) h

end TronWallet.Analysis
