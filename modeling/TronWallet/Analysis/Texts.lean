import TronWallet.Analysis.Base58
import TronWallet.Analysis.StringNumber
import TronWallet.Model.AccountForms

/-!
# Numbers and names as texts

What the forms write into a text can be told from it.  A number is written in decimal
digits and read back from them, ASCII goes through the wide strings of the screen
unchanged, and an encoded address is ASCII.
-/

set_option autoImplicit false

namespace TronWallet.Analysis

open TronWallet.Model

/-! ## Wide strings -/

/-- Different texts are shown differently. -/
theorem widen_injective : Function.Injective widen := by
  unfold widen
  exact List.map_injective_iff.mpr fun _ _ h => UInt8.toUInt16_inj.mp h

/-- ASCII is copied. -/
theorem utf8ToWide_of_ascii {convertUnicode : Bytes → Wide} {b : Bytes} (h : ∀ c ∈ b, c < 128) :
    utf8ToWide convertUnicode b = widen b := by
  unfold utf8ToWide isStringASCII
  rw [if_pos (List.all_eq_true.mpr fun c hc => decide_eq_true (h c hc))]

/-- ASCII comes back as it was. -/
theorem wideToUTF8_utf8ToWide (U : Unicode) {b : Bytes} (h : ∀ c ∈ b, c < 128) :
    wideToUTF8 U (utf8ToWide U.toWide b) = b := by
  rw [utf8ToWide_of_ascii h]
  unfold wideToUTF8 widen
  have hsmall : (b.map UInt8.toUInt16).all (· < 128) = true := by
    rw [List.all_map, List.all_eq_true]
    intro c hc
    have hlt : c.toNat < 128 := h c hc
    have hwide : c.toUInt16 < 128 := by
      rw [UInt16.lt_iff_toNat_lt, UInt8.toNat_toUInt16]
      exact hlt
    exact decide_eq_true hwide
  rw [if_pos hsmall, List.map_map]
  conv_rhs => rw [← List.map_id b]
  exact List.map_congr_left fun c _ => UInt8.toUInt8_toUInt16 c

/-- ASCII in a control comes back as it was. -/
theorem wideToUTF8_widen (U : Unicode) {b : Bytes} (h : ∀ c ∈ b, c < 128) :
    wideToUTF8 U (widen b) = b := by
  have hback := wideToUTF8_utf8ToWide U h
  rwa [utf8ToWide_of_ascii h] at hback

/-- The characters of an encoded address are ASCII. -/
theorem ascii_of_base58Char {c : UInt8} (h : Base58Char c) : c < 128 := by
  have hall : ∀ d < 58, charOf d < 128 := by decide
  have hc := hall (digitOf c) h.spec.2.1
  rw [h.spec.1] at hc
  exact hc

/-! ## Decimal digits -/

/-- Digits are ASCII. -/
theorem ascii_of_digitText {text : Bytes} (h : DigitText text) : ∀ c ∈ text, c < 128 := by
  intro c hc
  have hnine : c.toNat ≤ 57 := (h c hc).2
  rw [UInt8.lt_iff_toNat_lt]
  exact lt_of_le_of_lt hnine (by decide)

/-- The number in a control that takes digits. -/
theorem stringToInt64_widen (U : Unicode) {text : Bytes} (h : DigitText text) :
    stringToInt64 (wideToUTF8 U (widen text)) =
      (decide (text ≠ [] ∧ typedNumber text < 2 ^ 63),
        min (typedNumber text : ℤ) (2 ^ 63 - 1)) := by
  rw [wideToUTF8_widen U (ascii_of_digitText h), stringToInt64_digits h]

/-- Signs and digits are ASCII. -/
theorem ascii_of_decimalNumber {text : Bytes} {v : ℤ} (h : decimalNumber text = some v) :
    ∀ c ∈ text, c < 128 := by
  have hcons : ∀ (sign : UInt8) (rest : Bytes), sign < 128 → DigitText rest →
      ∀ c ∈ sign :: rest, c < 128 := by
    intro sign rest hsign hrest c hc
    rcases List.mem_cons.mp hc with rfl | hmem
    · exact hsign
    · exact ascii_of_digitText hrest c hmem
  unfold decimalNumber at h
  split at h
  · rename_i rest
    by_cases hrest : rest ≠ [] ∧ DigitText rest
    · exact hcons 45 rest (by decide) hrest.2
    · simp [hrest] at h
  · rename_i rest
    by_cases hrest : rest ≠ [] ∧ DigitText rest
    · exact hcons 43 rest (by decide) hrest.2
    · simp [hrest] at h
  · by_cases htext : text ≠ [] ∧ DigitText text
    · exact ascii_of_digitText htext.2
    · simp [htext] at h

/-- The number in a control, when it fits. -/
theorem stringToInt64_widen_decimalNumber (U : Unicode) {text : Bytes} {v : ℤ}
    (h : decimalNumber text = some v) (hfits : Lib.FixedWidth.Fits 64 v) :
    stringToInt64 (wideToUTF8 U (widen text)) = (true, v) := by
  rw [wideToUTF8_widen U (ascii_of_decimalNumber h), stringToInt64_decimalNumber h hfits]

/-- What is written in decimal is a text of digits. -/
theorem digitText_decimal (n : ℕ) : DigitText (decimal n) := by
  unfold decimal
  by_cases hn : n = 0
  · rw [if_pos hn]
    decide
  · rw [if_neg hn]
    intro c hc
    obtain ⟨d, hd, rfl⟩ := List.mem_map.mp hc
    have hlt : d < 10 := Nat.digits_lt_base (by decide) (List.mem_reverse.mp hd)
    have hall : ∀ d < 10, 48 ≤ UInt8.ofNat (48 + d) ∧ UInt8.ofNat (48 + d) ≤ 57 := by decide
    exact hall d hlt

/-- A number is written with a digit at least. -/
theorem decimal_ne_nil (n : ℕ) : decimal n ≠ [] := by
  unfold decimal
  by_cases hn : n = 0
  · rw [if_pos hn]
    exact List.cons_ne_nil _ _
  · rw [if_neg hn]
    intro hnil
    exact hn (Nat.digits_eq_nil_iff_eq_zero.mp (List.reverse_eq_nil_iff.mp
      (List.map_eq_nil_iff.mp hnil)))

/-- The number its digits stand for. -/
theorem typedNumber_decimal (n : ℕ) : typedNumber (decimal n) = n := by
  unfold decimal typedNumber
  by_cases hn : n = 0
  · rw [if_pos hn, hn]
    decide
  · rw [if_neg hn, List.map_map, ← List.map_reverse, List.reverse_reverse]
    have hdigits : (Nat.digits 10 n).map ((fun c : UInt8 => c.toNat - 48) ∘
        fun d => UInt8.ofNat (48 + d)) = Nat.digits 10 n := by
      conv_rhs => rw [← List.map_id (Nat.digits 10 n)]
      refine List.map_congr_left fun d hd => ?_
      have hlt : d < 10 := Nat.digits_lt_base (by decide) hd
      have hall : ∀ d < 10, (UInt8.ofNat (48 + d)).toNat - 48 = d := by decide
      exact hall d hlt
    rw [hdigits, Nat.ofDigits_digits]

/-- Different numbers are written differently. -/
theorem decimal_injective : Function.Injective decimal := fun m n h => by
  rw [← typedNumber_decimal m, h, typedNumber_decimal]

/-- Digits are not below `0`: there is no sign and no blank among them. -/
theorem notMem_decimal {c : UInt8} (hc : c < 48) (n : ℕ) : c ∉ decimal n := fun hmem =>
  absurd (digitText_decimal n c hmem).1 (UInt8.not_le.mpr hc)

/-- A number can be told from its text. -/
theorem signedDecimal_inj {m n : ℤ} (h : signedDecimal m = signedDecimal n) : m = n := by
  unfold signedDecimal at h
  by_cases hm : m < 0 <;> by_cases hn : n < 0 <;> simp only [hm, hn, if_true, if_false] at h
  · have habs := decimal_injective (List.cons.inj h).2
    omega
  · exact absurd (h ▸ List.mem_cons_self) (notMem_decimal (by decide) n.natAbs)
  · exact absurd (h ▸ List.mem_cons_self) (notMem_decimal (by decide) m.natAbs)
  · have habs := decimal_injective h
    omega

/-- Different integers are written differently. -/
theorem toWstring_inj {m n : ℤ} (h : toWstring m = toWstring n) : m = n :=
  signedDecimal_inj (widen_injective h)

end TronWallet.Analysis
