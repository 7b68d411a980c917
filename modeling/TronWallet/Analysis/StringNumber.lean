import Mathlib.Data.Nat.Digits.Defs
import TronWallet.Lib.FixedWidth
import TronWallet.Model.StringNumber

/-!
# What a text of digits is read as

The edits of the forms take digits only, in any number.  `StringToInt64` reads such a text
as the number it stands for as long as that fits, and as the largest number of the type
from there on; the result tells which of the two, and that the text is not empty
(`stringToInt64_digits`).  The loop is followed with the value of what it has read: the
check before each digit is exactly the comparison of the next value with the bound.
-/

set_option autoImplicit false

namespace TronWallet.Analysis

open TronWallet.Lib.FixedWidth TronWallet.Model TronWallet.Model.IteratorRangeToNumber

/-- A text of decimal digits, possibly empty. -/
def DigitText (text : Bytes) : Prop := ∀ c ∈ text, 48 ≤ c ∧ c ≤ 57

instance (text : Bytes) : Decidable (DigitText text) :=
  List.decidableBAll (fun c => 48 ≤ c ∧ c ≤ 57) text

/-- The number a text of decimal digits stands for. -/
def typedNumber (text : Bytes) : ℕ := Nat.ofDigits 10 (text.map fun c => c.toNat - 48).reverse

/-- No digits are the number zero. -/
@[simp] theorem typedNumber_nil : typedNumber [] = 0 := rfl

/-- What 64 bits hold of a number is the number when it fits. -/
theorem min_int64_of_lt {n : ℕ} (h : n < 2 ^ 63) : min (n : ℤ) (2 ^ 63 - 1) = n := by omega

/-- A digit in front of a text. -/
theorem typedNumber_cons (c : UInt8) (text : Bytes) :
    typedNumber (c :: text) = (c.toNat - 48) * 10 ^ text.length + typedNumber text := by
  unfold typedNumber
  rw [List.map_cons, Nat.ofDigits_reverse_cons, List.length_map]
  ring

/-- One text of digits after another. -/
theorem typedNumber_append (a b : Bytes) :
    typedNumber (a ++ b) = typedNumber a * 10 ^ b.length + typedNumber b := by
  induction a with
  | nil => simp
  | cons c a ih =>
      rw [List.cons_append, typedNumber_cons, typedNumber_cons, ih, List.length_append, pow_add]
      ring

section Positive

variable {T : NumberTraits}

/-- A digit is read as its value. -/
theorem charToDigit_of_digit (hbase : T.kBase = 10) {c : UInt8} (h : 48 ≤ c ∧ c ≤ 57) :
    charToDigit T c = some ((c.toNat - 48 : ℕ) : ℤ) := by
  have hlow : 48 ≤ c.toNat := h.1
  have hhigh : c.toNat ≤ 57 := h.2
  unfold charToDigit
  rw [hbase, if_pos ⟨hlow, by omega⟩, Nat.cast_sub hlow]
  rfl

/-- The loop, after a value in range has been read: the whole value if it is in range, and
the bound if it is not. -/
theorem digitLoop_digits (hbase : T.kBase = 10) (hmax : 0 ≤ T.max) {text : Bytes}
    (h : DigitText text) (v : ℤ) (hv : 0 ≤ v) (hle : v ≤ T.max) :
    digitLoop T .positive text false v =
      (decide (v * 10 ^ text.length + typedNumber text ≤ T.max),
        min (v * 10 ^ text.length + typedNumber text) T.max) := by
  induction text generalizing v with
  | nil =>
      simp only [digitLoop, List.length_nil, pow_zero, mul_one, typedNumber_nil, Nat.cast_zero,
        add_zero, hle, decide_true, min_eq_left]
  | cons c text ih =>
      have hc := h c List.mem_cons_self
      have hrest : DigitText text := fun x hx => h x (List.mem_cons_of_mem _ hx)
      have hhigh : c.toNat ≤ 57 := hc.2
      have hdigit : ((c.toNat - 48 : ℕ) : ℤ) < 10 := by omega
      have hvalue : v * 10 ^ (c :: text).length + typedNumber (c :: text) =
          (v * 10 + ((c.toNat - 48 : ℕ) : ℤ)) * 10 ^ text.length + typedNumber text := by
        rw [typedNumber_cons, List.length_cons]
        push_cast
        ring
      have hexceeds := exceeds_iff (v := v) hmax (by decide) (Int.natCast_nonneg _) hdigit
      have hcheck : checkBounds T .positive v ((c.toNat - 48 : ℕ) : ℤ) =
          if T.max < v * 10 + ((c.toNat - 48 : ℕ) : ℤ) then (false, T.max) else (true, v) := by
        rw [checkBounds, hbase]
        simp only [hexceeds]
      rw [hvalue, digitLoop, charToDigit_of_digit hbase hc]
      simp only [Bool.false_eq_true, if_false, hcheck]
      by_cases hout : T.max < v * 10 + ((c.toNat - 48 : ℕ) : ℤ)
      · -- the value only grows with the digits that follow
        have hgrow : v * 10 + ((c.toNat - 48 : ℕ) : ℤ) ≤
            (v * 10 + ((c.toNat - 48 : ℕ) : ℤ)) * 10 ^ text.length + typedNumber text := by
          have hpow : (1 : ℤ) ≤ 10 ^ text.length := one_le_pow₀ (by decide)
          nlinarith [Int.natCast_nonneg (typedNumber text)]
        rw [if_pos hout, min_eq_right (by omega), decide_eq_false (by omega)]
      · rw [if_neg hout]
        simp only [increment, hbase]
        exact ih hrest _ (by omega) (by omega)

end Positive

/-- Digits are neither white space nor a sign. -/
theorem invoke_digits {T : NumberTraits} {text : Bytes} (h : DigitText text) :
    invoke T text = invokeBase T .positive text := by
  cases text with
  | nil => rfl
  | cons c text =>
      obtain ⟨hlow, hhigh⟩ := h c List.mem_cons_self
      have hspace : isspace c = false := by
        have hnat : 48 ≤ c.toNat := hlow
        unfold isspace
        rw [decide_eq_false_iff_not]
        rintro (rfl | ⟨-, hc⟩)
        · exact absurd hlow (by decide)
        · exact absurd (UInt8.le_trans hlow hc) (by decide)
      unfold invoke
      rw [List.dropWhile_cons_of_neg (by rw [hspace]; decide)]
      simp only [decide_true, Bool.true_and]
      split
      · rename_i hminus
        cases hminus
        exact absurd hlow (by decide)
      · rename_i hplus
        cases hplus
        exact absurd hlow (by decide)
      · rfl

/-- The whole text: the number it stands for, up to the largest there is. -/
theorem invokeBase_digits {T : NumberTraits} (hbase : T.kBase = 10) (hmax : 9 ≤ T.max)
    {text : Bytes} (h : DigitText text) :
    invokeBase T .positive text =
      (decide (text ≠ [] ∧ (typedNumber text : ℤ) ≤ T.max), min (typedNumber text : ℤ) T.max) := by
  cases text with
  | nil =>
      rw [invokeBase, if_pos rfl, typedNumber_nil, min_eq_left (by omega)]
      simp
  | cons c text =>
      have hc := h c List.mem_cons_self
      have hhigh : c.toNat ≤ 57 := hc.2
      have hloop := digitLoop_digits hbase (by omega)
        (fun x hx => h x (List.mem_cons_of_mem _ hx)) ((c.toNat - 48 : ℕ) : ℤ)
        (Int.natCast_nonneg _) (by omega)
      have hvalue : ((c.toNat - 48 : ℕ) : ℤ) * 10 ^ text.length + typedNumber text =
          typedNumber (c :: text) := by
        rw [typedNumber_cons]
        push_cast
        rfl
      rw [hvalue] at hloop
      rw [invokeBase, if_neg (List.cons_ne_nil _ _), digitLoop, charToDigit_of_digit hbase hc]
      simp only [if_true, increment, zero_add]
      rw [hloop]
      simp

/-- **A text of digits is read as its number up to the largest there is.** -/
theorem stringToInt64_digits {text : Bytes} (h : DigitText text) :
    stringToInt64 text =
      (decide (text ≠ [] ∧ typedNumber text < 2 ^ 63),
        min (typedNumber text : ℤ) (2 ^ 63 - 1)) := by
  have hmax : int64Traits.max = 2 ^ 63 - 1 := rfl
  unfold stringToInt64
  rw [invoke_digits h, invokeBase_digits rfl (by decide) h, hmax]
  refine Prod.ext ?_ rfl
  rw [decide_eq_decide]
  constructor
  · rintro ⟨hne, hle⟩
    exact ⟨hne, by omega⟩
  · rintro ⟨hne, hlt⟩
    exact ⟨hne, by omega⟩

/-! ## Signed texts -/

/-- The traits whose bounds are the other way round. -/
def mirrored (T : NumberTraits) : NumberTraits where
  min := -T.max
  max := -T.min
  kBase := T.kBase

/-- The bound below is checked like the mirrored one above. -/
theorem checkBounds_negative (T : NumberTraits) (v d : ℤ) :
    checkBounds T .negative (-v) d =
      ((checkBounds (mirrored T) .positive v d).1,
        -(checkBounds (mirrored T) .positive v d).2) := by
  have hcond : (-v < T.min.tdiv T.kBase ∨
      -v = T.min.tdiv T.kBase ∧ 0 - T.min.tmod T.kBase < d) ↔
      ((-T.min).tdiv T.kBase < v ∨
        v = (-T.min).tdiv T.kBase ∧ (-T.min).tmod T.kBase < d) := by
    rw [Int.neg_tdiv, Int.neg_tmod]
    omega
  unfold checkBounds mirrored
  simp only [hcond]
  by_cases hout : (-T.min).tdiv T.kBase < v ∨
      v = (-T.min).tdiv T.kBase ∧ (-T.min).tmod T.kBase < d
  · simp only [if_pos hout, neg_neg]
  · simp only [if_neg hout]

/-- The digits of a negative number are appended like those of a positive one. -/
theorem digitLoop_negative (T : NumberTraits) (text : Bytes) (atBegin : Bool) (v : ℤ) :
    digitLoop T .negative text atBegin (-v) =
      ((digitLoop (mirrored T) .positive text atBegin v).1,
        -(digitLoop (mirrored T) .positive text atBegin v).2) := by
  induction text generalizing atBegin v with
  | nil => rfl
  | cons c text ih =>
      have hdigit : charToDigit (mirrored T) c = charToDigit T c := rfl
      rw [digitLoop, digitLoop, hdigit]
      cases charToDigit T c with
      | none => rfl
      | some d =>
          have hstep : ∀ u : ℤ, increment .negative d (-u) = -increment .positive d u := by
            intro u
            simp only [increment]
            omega
          cases atBegin with
          | true =>
              simp only [if_true]
              rw [hstep, ih]
          | false =>
              simp only [Bool.false_eq_true, if_false]
              rw [checkBounds_negative]
              cases hcheck : checkBounds (mirrored T) .positive v d with
              | mk inRange output =>
                  cases inRange with
                  | false => rfl
                  | true =>
                      simp only
                      rw [neg_mul, hstep, ih]
                      rfl

/-- The text of a negative number after its sign. -/
theorem invokeBase_negative (T : NumberTraits) (text : Bytes) :
    invokeBase T .negative text =
      ((invokeBase (mirrored T) .positive text).1,
        -(invokeBase (mirrored T) .positive text).2) := by
  unfold invokeBase
  by_cases htext : text = []
  · simp only [if_pos htext, neg_zero]
  · have hloop := digitLoop_negative T text true 0
    rw [neg_zero] at hloop
    simp only [if_neg htext, hloop]

/-- A minus begins a negative number. -/
theorem invoke_minus (T : NumberTraits) (rest : Bytes) :
    invoke T (45 :: rest) = invokeBase T .negative rest := by
  unfold invoke
  rw [List.dropWhile_cons_of_neg (by decide)]
  simp

/-- A plus begins a positive number. -/
theorem invoke_plus (T : NumberTraits) (rest : Bytes) :
    invoke T (43 :: rest) = invokeBase T .positive rest := by
  unfold invoke
  rw [List.dropWhile_cons_of_neg (by decide)]
  simp

/-- The number an optional sign and decimal digits stand for. -/
def decimalNumber : Bytes → Option ℤ
  | 45 :: text => if text ≠ [] ∧ DigitText text then some (-(typedNumber text : ℤ)) else none
  | 43 :: text => if text ≠ [] ∧ DigitText text then some (typedNumber text) else none
  | text => if text ≠ [] ∧ DigitText text then some (typedNumber text) else none

section

variable {T : NumberTraits} (hbase : T.kBase = 10) (hmin : T.min ≤ -9) (hmax : 9 ≤ T.max)

include hbase hmin hmax

/-- A number in the range of a type is read from its text, with its sign or without. -/
theorem invoke_decimalNumber {text : Bytes} {v : ℤ} (h : decimalNumber text = some v)
    (hlow : T.min ≤ v) (hhigh : v ≤ T.max) : invoke T text = (true, v) := by
  unfold decimalNumber at h
  split at h
  · rename_i rest
    split at h
    · rename_i hrest
      cases h
      have hread := invokeBase_digits (T := mirrored T) hbase
        (show 9 ≤ -T.min by omega) hrest.2
      have hbound : (mirrored T).max = -T.min := rfl
      rw [hbound, min_eq_left (by omega), decide_eq_true ⟨hrest.1, by omega⟩] at hread
      rw [invoke_minus, invokeBase_negative, hread]
    · cases h
  · rename_i rest
    split at h
    · rename_i hrest
      cases h
      have hread := invokeBase_digits hbase hmax hrest.2
      rw [min_eq_left hhigh, decide_eq_true ⟨hrest.1, hhigh⟩] at hread
      rw [invoke_plus, hread]
    · cases h
  · split at h
    · rename_i htext
      cases h
      rw [invoke_digits htext.2, invokeBase_digits hbase hmax htext.2, min_eq_left hhigh,
        decide_eq_true ⟨htext.1, hhigh⟩]
    · cases h

end

/-- **A number in range is read from its text**, with its sign or without. -/
theorem stringToInt64_decimalNumber {text : Bytes} {v : ℤ} (h : decimalNumber text = some v)
    (hfits : Fits 64 v) : stringToInt64 text = (true, v) := by
  unfold Fits at hfits
  have hmin : int64Traits.min = -2 ^ 63 := rfl
  have hmax : int64Traits.max = 2 ^ 63 - 1 := rfl
  exact invoke_decimalNumber rfl (by decide) (by decide) h (by omega) (by omega)

/-! ## What has been read -/

/-- With the base ten only decimal digits are let through. -/
theorem digit_of_charToDigit {T : NumberTraits} (hbase : T.kBase = 10) {c : UInt8} {d : ℤ}
    (h : charToDigit T c = some d) : 48 ≤ c ∧ c ≤ 57 := by
  unfold charToDigit at h
  split_ifs at h with hc
  rw [hbase] at hc
  exact ⟨UInt8.le_iff_toNat_le.mpr hc.1, UInt8.le_iff_toNat_le.mpr (by
    show c.toNat ≤ 57
    omega)⟩

/-- A loop that succeeds has met digits only. -/
theorem digitText_of_digitLoop {T : NumberTraits} (hbase : T.kBase = 10) {sign : Sign}
    {text : Bytes} {atBegin : Bool} {v : ℤ} (h : (digitLoop T sign text atBegin v).1 = true) :
    DigitText text := by
  induction text generalizing atBegin v with
  | nil => exact fun c hc => absurd hc List.not_mem_nil
  | cons c text ih =>
      rw [digitLoop] at h
      cases hdigit : charToDigit T c with
      | none =>
          rw [hdigit] at h
          cases h
      | some d =>
          rw [hdigit] at h
          dsimp only at h
          have hrest : DigitText text := by
            cases atBegin with
            | true => exact ih h
            | false =>
                rw [if_neg (by decide)] at h
                cases hcheck : checkBounds T sign v d with
                | mk ok output =>
                    rw [hcheck] at h
                    cases ok with
                    | false => cases h
                    | true => exact ih h
          intro x hx
          rcases List.mem_cons.mp hx with rfl | hx
          · exact digit_of_charToDigit hbase hdigit
          · exact hrest x hx

section

variable {T : NumberTraits} (hbase : T.kBase = 10)

include hbase

/-- The number that digits without a sign have been read as. -/
theorem invokeBase_positive_eq_true (hmax : 9 ≤ T.max) {text : Bytes}
    (h : (invokeBase T .positive text).1 = true) :
    text ≠ [] ∧ DigitText text ∧ (typedNumber text : ℤ) ≤ T.max ∧
      (invokeBase T .positive text).2 = typedNumber text := by
  have hdigits : DigitText text := by
    by_cases htext : text = []
    · rw [htext]
      exact fun c hc => absurd hc List.not_mem_nil
    · rw [invokeBase, if_neg htext] at h
      exact digitText_of_digitLoop hbase h
  rw [invokeBase_digits hbase hmax hdigits] at h ⊢
  obtain ⟨hne, hle⟩ := of_decide_eq_true h
  exact ⟨hne, hdigits, hle, min_eq_left hle⟩

/-- **What a type reads is the number of the text**, and it is in range. -/
theorem decimalNumber_of_invoke (hmin : T.min ≤ -9) (hmax : 9 ≤ T.max) {text : Bytes} {v : ℤ}
    (h : invoke T text = (true, v)) : decimalNumber text = some v ∧ T.min ≤ v ∧ v ≤ T.max := by
  have hbegin : text.dropWhile isspace = text := by
    have hvalid := congrArg Prod.fst h
    unfold invoke at hvalid
    dsimp only at hvalid
    split at hvalid <;> exact of_decide_eq_true (Bool.and_eq_true_iff.mp hvalid).1
  have hpositive : ∀ digits, invokeBase T .positive digits = (true, v) →
      digits ≠ [] ∧ DigitText digits ∧ v = typedNumber digits ∧ v ≤ T.max := by
    intro digits hdigits
    obtain ⟨hne, hd, hle, hv⟩ :=
      invokeBase_positive_eq_true hbase hmax (congrArg Prod.fst hdigits)
    have hvalue : v = typedNumber digits := (congrArg Prod.snd hdigits).symm.trans hv
    exact ⟨hne, hd, hvalue, by omega⟩
  unfold decimalNumber
  split
  · rename_i rest
    rw [invoke_minus, invokeBase_negative] at h
    obtain ⟨hne, hd, hle, hv⟩ := invokeBase_positive_eq_true (T := mirrored T) hbase
      (show 9 ≤ -T.min by omega) (congrArg Prod.fst h)
    have hvalue : -(invokeBase (mirrored T) .positive rest).2 = v := congrArg Prod.snd h
    have hbound : (mirrored T).max = -T.min := rfl
    rw [if_pos ⟨hne, hd⟩]
    exact ⟨congrArg some (by omega), by omega, by omega⟩
  · rename_i rest
    rw [invoke_plus] at h
    obtain ⟨hne, hd, hv, hle⟩ := hpositive rest h
    rw [if_pos ⟨hne, hd⟩]
    exact ⟨congrArg some hv.symm, by omega, hle⟩
  · rename_i hminus hplus
    have hplain : invoke T text = invokeBase T .positive text := by
      unfold invoke
      rw [hbegin]
      simp only [decide_true, Bool.true_and]
    rw [hplain] at h
    obtain ⟨hne, hd, hv, hle⟩ := hpositive text h
    rw [if_pos ⟨hne, hd⟩]
    exact ⟨congrArg some hv.symm, by omega, hle⟩

end

end TronWallet.Analysis
