import TronWallet.Analysis.Amounts
import TronWallet.Analysis.Texts
import TronWallet.Lib.Rounding

/-!
# Amounts as exact rational numbers

`rationals` is the arithmetic of the forms without the error of `double`: a number is
exact, `%.4f` rounds to the nearest, and a conversion to an integer drops what follows the
point.  A conversion of a number that no 64-bit integer can hold, which the language leaves
open, gives the least of them, as the processors do for which the wallet is built.

How a text is read is a parameter; `readDecimal` is what `StringToDouble` makes of the
decimal texts.
-/

set_option autoImplicit false

namespace TronWallet.Reference

open TronWallet.Lib.FixedWidth TronWallet.Lib.Rounding TronWallet.Model TronWallet.Analysis

/-- The conversion to a 64-bit integer. -/
def rationalToInt64 (q : ℚ) : ℤ := if Fits 64 (truncate q) then truncate q else -2 ^ 63

/-- A number below `10 ^ places` with all its places. -/
def padded (places n : ℕ) : Bytes := List.replicate (places - (decimal n).length) 48 ++ decimal n

/-- What `printf` writes with some places after the point. -/
def fixedPoint (places : ℕ) (q : ℚ) : Bytes :=
  let n := (nearest (q * 10 ^ places)).natAbs
  (if q < 0 then [45] else []) ++
    (decimal (n / 10 ^ places) ++ 46 :: padded places (n % 10 ^ places))

/-- The rational numbers as amounts. -/
def rationals (read : Bytes → Option ℚ) : FormDoubles where
  Number := ℚ
  ofInt n := n
  toInt64 := rationalToInt64
  mul a b := a * b
  le a b := decide (a ≤ b)
  gt a b := decide (b < a)
  stringToDouble := read
  printf4 := fixedPoint 4
  div a b := a / b
  printf6 := fixedPoint 6

/-! ## Decimal texts -/

/-- A text up to a separator, and what follows it. -/
def splitAt (separator : UInt8 → Bool) (text : Bytes) : Bytes × Option Bytes :=
  (text.takeWhile fun c => !separator c,
    match text.dropWhile fun c => !separator c with
    | [] => none
    | _ :: rest => some rest)

/-- The digits of a number with a point, as a whole number and how many of them follow the
point. -/
def readFixed (text : Bytes) : Option (ℕ × ℕ) :=
  let (whole, fraction) := splitAt (· = 46) text
  let digits := whole ++ fraction.getD []
  if DigitText digits ∧ digits ≠ [] then some (typedNumber digits, (fraction.getD []).length)
  else none

/-- Whether a text begins with a minus, and the text without a sign. -/
def readSign : Bytes → Bool × Bytes
  | 45 :: rest => (true, rest)
  | 43 :: rest => (false, rest)
  | rest => (false, rest)

/-- A decimal exponent, zero where there is none. -/
def readExponent : Option Bytes → Option ℤ
  | none => some 0
  | some text =>
    let (negative, digits) := readSign text
    if DigitText digits ∧ digits ≠ [] then
      some (if negative then -(typedNumber digits : ℤ) else typedNumber digits)
    else none

/-- A number times a power of ten. -/
def scaled (n : ℚ) (exponent : ℤ) : ℚ :=
  if 0 ≤ exponent then n * 10 ^ exponent.toNat else n / 10 ^ (-exponent).toNat

/-- What `StringToDouble` makes of a decimal text.
SOURCE: base/string_number_conversions.cc:467-488 -/
def readDecimal (text : Bytes) : Option ℚ :=
  let (negative, unsigned) := readSign text
  let (mantissa, exponent) := splitAt (fun c => c = 101 || c = 69) unsigned
  (readFixed mantissa).bind fun (n, places) =>
    (readExponent exponent).map fun e =>
      scaled (if negative then -(n : ℚ) else n) (e - places)

/-! ## Whole numbers -/

/-- A whole number that fits is converted to itself. -/
theorem rationalToInt64_intCast {n : ℤ} (h : Fits 64 n) : rationalToInt64 n = n := by
  unfold rationalToInt64
  rw [truncate_intCast, if_pos h]

/-- Products are exact as far as they fit. -/
theorem exactProducts_rationals (read : Bytes → Option ℚ) :
    ExactProducts (rationals read).toDoubles where
  exact := by
    intro a b _ _ hproduct
    have hfits : Fits 64 (a * b) := by
      rw [abs_lt] at hproduct
      unfold Fits
      omega
    have hcast : ((a : ℚ) * (b : ℚ)) = ((a * b : ℤ) : ℚ) := (Int.cast_mul a b).symm
    exact (congrArg rationalToInt64 hcast).trans (rationalToInt64_intCast hfits)

/-- Whole TRX. -/
theorem toTrx_rationals (read : Bytes → Option ℚ) (amount : ℤ) :
    toTrx (rationals read).toDoubles amount = ((amount.tdiv trxDropRate : ℤ) : ℚ) := rfl

/-- Drops, from a number of TRX. -/
theorem toDrop_rationals (read : Bytes → Option ℚ) (amount : ℚ) :
    toDrop (rationals read).toDoubles amount = rationalToInt64 (amount * trxDropRate) := rfl

/-- Zeros in front of a number do not change it. -/
theorem digits_padded (places n : ℕ) :
    DigitText (padded places n) ∧ typedNumber (padded places n) = n := by
  unfold padded
  generalize places - (decimal n).length = k
  induction k with
  | zero => exact ⟨digitText_decimal n, typedNumber_decimal n⟩
  | succ k ih =>
      obtain ⟨hdigits, hvalue⟩ := ih
      rw [List.replicate_succ, List.cons_append]
      refine ⟨fun c hc => ?_, ?_⟩
      · rcases List.mem_cons.mp hc with rfl | hc
        · decide
        · exact hdigits c hc
      · rw [typedNumber_cons, hvalue]
        simp

/-- With its zeros zero has all its places. -/
theorem length_padded_zero {places : ℕ} (h : 0 < places) : (padded places 0).length = places := by
  unfold padded
  rw [List.length_append, List.length_replicate, show (decimal 0).length = 1 from rfl]
  omega

/-- A number without a point is read as it is. -/
theorem readFixed_decimal (n : ℕ) : readFixed (decimal n) = some (n, 0) := by
  have hpoint : ∀ c ∈ decimal n, (!decide (c = 46)) = true := by
    intro c hc
    have hne : c ≠ 46 := fun heq => notMem_decimal (by decide) n (heq ▸ hc)
    simpa using hne
  unfold readFixed splitAt
  rw [List.takeWhile_eq_self_iff.mpr hpoint, List.dropWhile_eq_nil_iff.mpr hpoint]
  dsimp only
  rw [Option.getD_none, List.append_nil, typedNumber_decimal]
  exact if_pos ⟨digitText_decimal n, decimal_ne_nil n⟩

/-- A whole number that is written with places is read with them. -/
theorem readFixed_fixedPoint {places : ℕ} (h : 0 < places) (n : ℕ) :
    readFixed (fixedPoint places (n : ℚ)) = some (n * 10 ^ places, places) := by
  have hnearest : nearest ((n : ℚ) * 10 ^ places) = ((n * 10 ^ places : ℕ) : ℤ) := by
    rw [← nearest_intCast ((n * 10 ^ places : ℕ) : ℤ)]
    congr 1
    push_cast
    rfl
  have htext : fixedPoint places (n : ℚ) = decimal n ++ 46 :: padded places 0 := by
    unfold fixedPoint
    rw [hnearest, Int.natAbs_natCast, if_neg (not_lt.mpr (Nat.cast_nonneg n)), List.nil_append,
      Nat.mul_div_cancel _ (Nat.pow_pos (by decide)), Nat.mul_mod_left]
  have hpoint : ∀ c ∈ decimal n, (!decide (c = 46)) = true := by
    intro c hc
    have hne : c ≠ 46 := fun heq => notMem_decimal (by decide) n (heq ▸ hc)
    simpa using hne
  obtain ⟨hdigits, hvalue⟩ := digits_padded places 0
  rw [htext]
  unfold readFixed splitAt
  rw [List.takeWhile_append_of_pos hpoint, List.dropWhile_append_of_pos hpoint,
    List.takeWhile_cons_of_neg (by decide), List.dropWhile_cons_of_neg (by decide)]
  dsimp only
  rw [Option.getD_some, List.append_nil, typedNumber_append, typedNumber_decimal, hvalue,
    length_padded_zero h, Nat.add_zero]
  refine if_pos ⟨fun c hc => ?_, ?_⟩
  · rcases List.mem_append.mp hc with hc | hc
    · exact digitText_decimal n c hc
    · exact hdigits c hc
  · intro hnil
    exact decimal_ne_nil n (List.append_eq_nil_iff.mp hnil).1

end TronWallet.Reference
