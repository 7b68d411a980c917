import TronWallet.Analysis.Amounts
import TronWallet.Model.TokenForms
import TronWallet.Reference.Platform
import TronWallet.Reference.Rationals

/-!
# The terms of an issued token

The form lets every positive number through.  The supply is the number as 64 bits read it,
and the two numbers of the price are cut to the 32 bits of their fields, the TRX after they
have become drops.  What the fields hold is in their ranges, so it is what has been typed
exactly when that is.
-/

set_option autoImplicit false

namespace TronWallet.Theorems

open TronWallet.Lib.FixedWidth TronWallet.Model TronWallet.Analysis TronWallet.Reference

/-! ## The property -/

/-- The terms of a contract are the numbers typed. -/
def IssuedAsTyped (contract : AssetIssueContract) (supply trx token : ℕ) : Prop :=
  contract.total_supply = supply ∧ contract.num = token ∧ contract.trx_num = 1000000 * trx

/-- The terms fit their fields. -/
def TermsFit (supply trx token : ℕ) : Prop :=
  supply < 2 ^ 63 ∧ token < 2 ^ 31 ∧ 1000000 * trx < 2 ^ 31

/-- The edits with three numbers typed into them. -/
def typedEdits (e : TokenIssueForm.Edits) (supply trx token : Bytes) : TokenIssueForm.Edits :=
  { e with totle_supply := widen supply, trx_amount := widen trx, token_amount := widen token }

/-! ## The checks -/

section Checks

variable {U : Unicode} {D : FormDoubles}

/-- A text of digits that is let through is the text typed. -/
theorem eq_of_check {text r : Bytes} {err : String} (hdigits : DigitText text)
    (h : TokenIssueForm.check U (widen text) err = .ok r) : r = text := by
  unfold TokenIssueForm.check at h
  rw [wideToUTF8_widen U (ascii_of_digitText hdigits)] at h
  split at h
  · cases h
  · exact (Except.ok.inj h).symm

/-- A number that is let through is the number typed, as far as 64 bits hold it. -/
theorem eq_of_checkNum {text : Bytes} {n : ℤ} {err : String} (hdigits : DigitText text)
    (h : TokenIssueForm.checkNum text err = .ok n) :
    n = min (typedNumber text : ℤ) (2 ^ 63 - 1) := by
  unfold TokenIssueForm.checkNum at h
  rw [stringToInt64_digits hdigits] at h
  dsimp only at h
  split at h
  · cases h
  · exact (Except.ok.inj h).symm

/-- The terms of a contract the form makes. -/
theorem terms_of_checkAndIssue {getTime : Bytes → ℕ} {w : Wallet} {now : ℕ}
    {e : TokenIssueForm.Edits} {supply trx token : Bytes} {contract : AssetIssueContract}
    (hsupply : DigitText supply) (htrx : DigitText trx) (htoken : DigitText token)
    (h : TokenIssueForm.checkAndIssue U D getTime w now (typedEdits e supply trx token) =
      .ok contract) :
    contract.total_supply = min (typedNumber supply : ℤ) (2 ^ 63 - 1) ∧
      contract.trx_num =
        wrap 32 (toDrop D.toDoubles (D.ofInt (min (typedNumber trx : ℤ) (2 ^ 63 - 1)))) ∧
      contract.num = wrap 32 (min (typedNumber token : ℤ) (2 ^ 63 - 1)) := by
  unfold TokenIssueForm.checkAndIssue at h
  obtain ⟨name, -, h⟩ := bind_eq_ok h
  obtain ⟨supply_text, hsupplyText, h⟩ := bind_eq_ok h
  obtain ⟨supply_num, hsupplyNum, h⟩ := bind_eq_ok h
  obtain ⟨trx_text, htrxText, h⟩ := bind_eq_ok h
  obtain ⟨trx_num, htrxNum, h⟩ := bind_eq_ok h
  obtain ⟨token_text, htokenText, h⟩ := bind_eq_ok h
  obtain ⟨token_num, htokenNum, h⟩ := bind_eq_ok h
  obtain ⟨description, -, h⟩ := bind_eq_ok h
  obtain ⟨url, -, h⟩ := bind_eq_ok h
  obtain ⟨stime, -, h⟩ := bind_eq_ok h
  obtain ⟨etime, -, h⟩ := bind_eq_ok h
  dsimp only at h
  split at h
  · cases h
  split at h
  · cases h
  obtain rfl := Except.ok.inj h
  obtain rfl := eq_of_check hsupply hsupplyText
  obtain rfl := eq_of_check htrx htrxText
  obtain rfl := eq_of_check htoken htokenText
  refine ⟨eq_of_checkNum hsupply hsupplyNum, ?_, ?_⟩
  · rw [← eq_of_checkNum htrx htrxNum]
  · rw [← eq_of_checkNum htoken htokenNum]

/-- The account changes nothing of a contract. -/
theorem eq_of_onAccount {P : Platform} {contract submitted : AssetIssueContract} {a : FormAccount}
    (h : TokenIssueForm.onAccount P U D contract a = .ok submitted) : submitted = contract := by
  unfold TokenIssueForm.onAccount at h
  split at h
  · cases h
  split at h
  · cases h
  · exact (Except.ok.inj h).symm

end Checks

/-! ## The contract -/

/-- **Exactly when a token is issued as typed.** -/
theorem issuedAsTyped_iff {P : Platform} {U : Unicode} {D : FormDoubles}
    (hD : ExactProducts D.toDoubles) {getTime : Bytes → ℕ} {w : Wallet} {now : ℕ}
    {e : TokenIssueForm.Edits} {supply trx token : Bytes} {contract submitted : AssetIssueContract}
    {a : FormAccount} (hsupply : DigitText supply) (htrx : DigitText trx)
    (htoken : DigitText token)
    (h : TokenIssueForm.checkAndIssue U D getTime w now (typedEdits e supply trx token) =
      .ok contract) (hsubmitted : TokenIssueForm.onAccount P U D contract a = .ok submitted) :
    IssuedAsTyped submitted (typedNumber supply) (typedNumber trx) (typedNumber token) ↔
      TermsFit (typedNumber supply) (typedNumber trx) (typedNumber token) := by
  obtain rfl := eq_of_onAccount hsubmitted
  obtain ⟨hsupplyHeld, htrxHeld, htokenHeld⟩ := terms_of_checkAndIssue hsupply htrx htoken h
  have hrate : trxDropRate = 1000000 := rfl
  unfold IssuedAsTyped TermsFit
  constructor
  · rintro ⟨hsupplyEq, htokenEq, htrxEq⟩
    -- A field holds no more than its range.
    have htokenFits := fits_wrap (w := 32) (by omega) (min (typedNumber token : ℤ) (2 ^ 63 - 1))
    have htrxFits := fits_wrap (w := 32) (by omega)
      (toDrop D.toDoubles (D.ofInt (min (typedNumber trx : ℤ) (2 ^ 63 - 1))))
    rw [← htokenHeld, htokenEq] at htokenFits
    rw [← htrxHeld, htrxEq] at htrxFits
    unfold Fits at htokenFits htrxFits
    refine ⟨?_, ?_, ?_⟩ <;> omega
  · rintro ⟨hsupplyLt, htokenLt, htrxLt⟩
    have htokenFits : Fits 32 (typedNumber token : ℤ) :=
      (fits_iff_of_nonneg (by omega)).mpr (by omega)
    have htrxFits : Fits 32 (1000000 * typedNumber trx : ℤ) :=
      (fits_iff_of_nonneg (by omega)).mpr (by omega)
    have hdrops : toDrop D.toDoubles (D.ofInt (typedNumber trx : ℤ)) =
        1000000 * typedNumber trx := by
      rw [toDrop_ofInt hD (by rw [hrate]; omega) (by rw [hrate]; omega), hrate, mul_comm]
    refine ⟨?_, ?_, ?_⟩
    · rw [hsupplyHeld, min_int64_of_lt hsupplyLt]
    · rw [htokenHeld, min_int64_of_lt (by omega), wrap_of_fits (by omega) htokenFits]
    · rw [htrxHeld, min_int64_of_lt (by omega), hdrops, wrap_of_fits (by omega) htrxFits]

/-! ## Given terms -/

/-- The days from the beginning of 1970 to a date. -/
def daysSince1970 (year month day : ℕ) : ℕ :=
  let y := if month ≤ 2 then year - 1 else year
  365 * y + y / 4 - y / 100 + y / 400 + ((month + 9) % 12 * 306 + 5) / 10 + (day - 1) - 719468

/-- A date in the form `%m/%d/%Y %H:%M`, in a zone without an offset, in milliseconds.
SOURCE: wallet/core/core_util.cpp:33-46 -/
def readTime (text : Bytes) : ℕ :=
  let part (start length : ℕ) := typedNumber ((text.drop start).take length)
  if text.length = 16 then
    ((daysSince1970 (part 6 4) (part 0 2) (part 3 2) * 24 + part 11 2) * 60 + part 14 2) * 60000
  else 0

/-- A token that is sold in July 2018. -/
def julyEdits : TokenIssueForm.Edits where
  token_name := ascii "X"
  totle_supply := []
  trx_amount := []
  token_amount := []
  description := ascii "X"
  url := ascii "http://"
  start_date := ascii "07/01/2018 00:00"
  end_date := ascii "08/01/2018 00:00"

/-- The contract of that token. -/
def julyContract (trx_num : ℤ) : AssetIssueContract where
  owner_address := [65]
  name := [88]
  total_supply := 100000
  trx_num := trx_num
  num := 1
  start_time := 1530403200000
  end_time := 1533081600000
  description := [88]
  url := [104, 116, 116, 112, 58, 47, 47]

/-- What the form makes of a price for one token, in June. -/
def issueAt (trx : Bytes) : Except Wide AssetIssueContract :=
  TokenIssueForm.checkAndIssue narrow (rationals readDecimal) readTime
    { address_pair_ := ([65], []) } 1528000000000
    (typedEdits julyEdits [49, 48, 48, 48, 48, 48] trx [49])

/-- An account with two thousand TRX. -/
def richAccount : FormAccount where
  address := [65]
  balance := 2000000000

/-- One TRX for one token. -/
theorem issuedAsTyped_one : IssuedAsTyped (julyContract 1000000) 100000 1 1 := by
  have hissued : issueAt [49] = .ok (julyContract 1000000) := by decide +kernel
  have hsubmitted : TokenIssueForm.onAccount reference narrow (rationals readDecimal)
      (julyContract 1000000) richAccount = .ok (julyContract 1000000) := by decide
  have hsupply : typedNumber [49, 48, 48, 48, 48, 48] = 100000 := by decide
  have hone : typedNumber [49] = 1 := by decide
  rw [← hsupply, ← hone, issuedAsTyped_iff (exactProducts_rationals readDecimal) (by decide)
    (by decide) (by decide) hissued hsubmitted, hsupply, hone]
  refine ⟨?_, ?_, ?_⟩ <;> decide

/-- 4295 TRX are typed for one token, which is issued at less than a tenth of one. -/
theorem price_cut_to_field :
    issueAt [52, 50, 57, 53] = .ok (julyContract 32704) ∧
    TokenIssueForm.onAccount reference narrow (rationals readDecimal) (julyContract 32704)
      richAccount = .ok (julyContract 32704) ∧
    typedNumber [52, 50, 57, 53] = 4295 ∧ ¬IssuedAsTyped (julyContract 32704) 100000 4295 1 := by
  refine ⟨by decide +kernel, by decide, by decide, ?_⟩
  rintro ⟨-, -, htrx⟩
  exact absurd htrx (by decide)

end TronWallet.Theorems
