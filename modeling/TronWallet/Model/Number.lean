import TronWallet.Model.Bytes

/-!
# Amounts as floating-point numbers

The forms hold amounts as `double`.  The type, its comparisons and its conversions are
parameters; what the wallet computes with them, the two conversions between TRX and drops,
is defined here.
-/

set_option autoImplicit false

namespace TronWallet.Model

/-- What is used of `double`. -/
structure Doubles where
  Number : Type
  /-- The conversion of an integer. -/
  ofInt : ℤ → Number
  /-- The conversion to a 64-bit integer. -/
  toInt64 : Number → ℤ
  mul : Number → Number → Number
  /-- `a <= b`. -/
  le : Number → Number → Bool
  /-- `a > b`. -/
  gt : Number → Number → Bool
  /-- `base::StringToDouble`, `none` where it returns false. -/
  stringToDouble : Bytes → Option Number
  /-- What `printf` writes for `%.4f`. -/
  printf4 : Number → Bytes

/-- SOURCE: wallet/core/core_util.h:12 -/
def trxDropRate : ℤ := 1000000

/-- The text `TRX`. -/
def trxName : Bytes := [84, 82, 88]

variable (D : Doubles)

/-- The division is that of integers. SOURCE: wallet/core/core_util.cpp:169-172 -/
def toTrx (amount : ℤ) : D.Number := D.ofInt (amount.tdiv trxDropRate)

/-- SOURCE: wallet/core/core_util.cpp:174-177 -/
def toDrop (amount : D.Number) : ℤ := D.toInt64 (D.mul amount (D.ofInt trxDropRate))

end TronWallet.Model
