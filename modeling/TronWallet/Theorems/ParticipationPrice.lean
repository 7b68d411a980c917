import TronWallet.Model.TokenForms
import TronWallet.Reference.Rationals
import TronWallet.Reference.SendRuns

/-!
# The price of an issue

The list of tokens divides the drops of a price into whole TRX before it divides by the
number of tokens; from there on everything is exact.  What is paid is therefore the price
of the issue with the drops below one TRX left out: the right amount when there are none,
and less than it for every number of tokens when there are some.
-/

set_option autoImplicit false

namespace TronWallet.Theorems

open TronWallet.Lib.FixedWidth TronWallet.Lib.Rounding TronWallet.Model TronWallet.Analysis
open TronWallet.Reference

/-- The drops for some tokens at the price of an issue. -/
def issuePrice (issue : AssetIssueContract) (n : ℕ) : ℤ := n * issue.trx_num / issue.num

/-- The price is in whole TRX, and 64 bits hold what is to be paid. -/
def PricedInTrx (issue : AssetIssueContract) (n : ℕ) : Prop :=
  trxDropRate ∣ issue.trx_num ∧ issuePrice issue n < 2 ^ 63

/-! ## Conversions of exact numbers -/

/-- What is below a positive whole number is converted to something below it. -/
theorem rationalToInt64_lt {q : ℚ} {k : ℤ} (hq : 0 ≤ q) (h : q < k) : rationalToInt64 q < k := by
  have hk : (0 : ℚ) < k := lt_of_le_of_lt hq h
  have hpos : 0 < k := by exact_mod_cast hk
  unfold rationalToInt64
  by_cases hfits : Fits 64 (truncate q)
  · rw [if_pos hfits, truncate_eq_floor hq]
    exact Int.floor_lt.mpr h
  · rw [if_neg hfits]
    omega

/-- A positive whole number is converted to itself when 64 bits hold it. -/
theorem rationalToInt64_eq_self_iff {k : ℤ} (hk : 0 < k) :
    rationalToInt64 k = k ↔ k < 2 ^ 63 := by
  constructor
  · intro h
    by_contra hlt
    have hfits : ¬Fits 64 k := fun hk64 => hlt ((fits_iff_of_nonneg hk.le).mp hk64)
    unfold rationalToInt64 at h
    rw [truncate_intCast, if_neg hfits] at h
    omega
  · intro h
    exact rationalToInt64_intCast ((fits_iff_of_nonneg hk.le).mpr h)

section Price

variable {drops tokens n k : ℤ} (htokens : 0 < tokens) (hk : n * drops = tokens * k)
include htokens hk

/-- A price in whole TRX comes back as it is. -/
theorem whole_price_eq (hwhole : 1000000 ∣ drops) :
    ((drops / 1000000 : ℤ) / tokens * n * (1000000 : ℤ) : ℚ) = k := by
  have htokensQ : (tokens : ℚ) ≠ 0 := by exact_mod_cast htokens.ne'
  have hkQ : (n : ℚ) * drops = tokens * k := by exact_mod_cast hk
  have hdrops : (1000000 : ℚ) * (drops / 1000000 : ℤ) = drops := by
    exact_mod_cast Int.mul_ediv_cancel' hwhole
  rw [div_mul_eq_mul_div, div_mul_eq_mul_div, div_eq_iff htokensQ]
  calc ((drops / 1000000 : ℤ) * n * (1000000 : ℤ) : ℚ)
      = n * (1000000 * (drops / 1000000 : ℤ)) := by
        push_cast
        ring
    _ = n * drops := by rw [hdrops]
    _ = k * tokens := by rw [hkQ, mul_comm]

/-- A price that is not in whole TRX becomes smaller. -/
theorem whole_price_lt (hn : 0 < n) (hrest : ¬1000000 ∣ drops) :
    ((drops / 1000000 : ℤ) / tokens * n * (1000000 : ℤ) : ℚ) < k := by
  have htokensQ : (0 : ℚ) < tokens := by exact_mod_cast htokens
  have hnQ : (0 : ℚ) < n := by exact_mod_cast hn
  have hkQ : (n : ℚ) * drops = tokens * k := by exact_mod_cast hk
  have hless : (1000000 : ℚ) * (drops / 1000000 : ℤ) < drops := by
    have hlessZ : 1000000 * (drops / 1000000) < drops := by omega
    exact_mod_cast hlessZ
  rw [div_mul_eq_mul_div, div_mul_eq_mul_div, div_lt_iff₀ htokensQ]
  calc ((drops / 1000000 : ℤ) * n * (1000000 : ℤ) : ℚ)
      = n * (1000000 * (drops / 1000000 : ℤ)) := by
        push_cast
        ring
    _ < n * drops := mul_lt_mul_of_pos_left hless hnQ
    _ = k * tokens := by rw [hkQ, mul_comm]

end Price

/-- The price with its drops below one TRX left out is the price when there are none. -/
theorem whole_price_eq_iff {drops tokens n : ℤ} (hdrops : 0 < drops) (htokens : 0 < tokens)
    (hn : 0 < n) (hdvd : tokens ∣ n * drops) :
    rationalToInt64 ((drops.tdiv 1000000 : ℤ) / tokens * n * (1000000 : ℤ)) =
        n * drops / tokens ↔
      1000000 ∣ drops ∧ n * drops / tokens < 2 ^ 63 := by
  obtain ⟨k, hk⟩ := hdvd
  have hquotient : n * drops / tokens = k := by
    rw [hk, Int.mul_ediv_cancel_left _ htokens.ne']
  have hpos : 0 < k := by
    have hproduct : 0 < tokens * k := hk ▸ Int.mul_pos hn hdrops
    exact (mul_pos_iff_of_pos_left htokens).mp hproduct
  rw [hquotient, Int.tdiv_eq_ediv_of_nonneg hdrops.le]
  by_cases hwhole : 1000000 ∣ drops
  · rw [whole_price_eq htokens hk hwhole, rationalToInt64_eq_self_iff hpos]
    exact (and_iff_right hwhole).symm
  · have hnonneg : (0 : ℚ) ≤ (drops / 1000000 : ℤ) / tokens * n * (1000000 : ℤ) := by
      have hfloor : (0 : ℤ) ≤ drops / 1000000 := by omega
      have hfloorQ : (0 : ℚ) ≤ (drops / 1000000 : ℤ) := by exact_mod_cast hfloor
      push_cast
      positivity
    have hlt := rationalToInt64_lt hnonneg (whole_price_lt htokens hk hn hwhole)
    exact iff_of_false hlt.ne fun h => hwhole h.1

/-! ## From the list to the contract -/

section Forms

variable {P : Platform} {U : Unicode} {D : FormDoubles}

/-- The price of an entry stays what it is on its way through the main window. -/
theorem exchange_rate_onShowParticipate {entry data : IssueItemData D} {account : AccountMessage}
    (h : MainWindow.onShowParticipate P U entry account = some data) :
    data.exchange_rate = entry.exchange_rate := by
  unfold MainWindow.onShowParticipate at h
  split at h
  · cases h
  · split at h
    · obtain rfl := Option.some.inj h
      rfl
    · obtain rfl := Option.some.inj h
      rfl

/-- The amount of a contract is the price of an entry times the number of tokens. -/
theorem amount_of_onButtonClick {w : Wallet} {data : IssueItemData D} {text : Bytes}
    {contract : ParticipateAssetIssueContract} (hdigits : DigitText text)
    (hcount : (typedNumber text : ℤ) < 2 ^ 63)
    (h : ParticipateForm.onButtonClick P U w data (widen text) = .ok contract) :
    contract.amount =
      toDrop D.toDoubles (D.mul data.exchange_rate (D.ofInt (typedNumber text))) := by
  unfold ParticipateForm.onButtonClick at h
  rw [stringToInt64_widen U hdigits, min_int64_of_lt (by omega)] at h
  dsimp only at h
  split at h
  · cases h
  split at h
  · cases h
  split at h
  · cases h
  split at h
  · cases h
  · obtain rfl := Except.ok.inj h
    rfl

/-- **Exactly when the price of the issue is paid.** -/
theorem paysPrice_iff {read : Bytes → Option ℚ} {issue_list : List AssetIssueContract} {i : ℕ}
    {issue : AssetIssueContract} {entry data : IssueItemData (rationals read)}
    {account : AccountMessage} {w : Wallet} {text : Bytes}
    {contract : ParticipateAssetIssueContract} (hissue : issue_list[i]? = some issue)
    (hentry : (TokenListForm.updateIssueList P U (rationals read) issue_list)[i]? = some entry)
    (hshown : MainWindow.onShowParticipate P U entry account = some data)
    (hdrops : 0 < issue.trx_num) (htokens : 0 < issue.num) (hdigits : DigitText text)
    (hpos : 0 < typedNumber text) (hrest : (typedNumber text : ℤ) ≤ data.avaliable_count)
    (havaliable : data.avaliable_count < 2 ^ 63)
    (hdvd : issue.num ∣ typedNumber text * issue.trx_num)
    (h : ParticipateForm.onButtonClick P U w data (widen text) = .ok contract) :
    contract.amount = issuePrice issue (typedNumber text) ↔
      PricedInTrx issue (typedNumber text) := by
  have hitem : entry = TokenListForm.itemData P U (rationals read) issue := by
    unfold TokenListForm.updateIssueList at hentry
    rw [List.getElem?_map, hissue] at hentry
    exact (Option.some.inj hentry).symm
  have hrate : data.exchange_rate = ((issue.trx_num.tdiv 1000000 : ℤ) / issue.num : ℚ) := by
    rw [exchange_rate_onShowParticipate hshown, hitem]
    rfl
  have hcount : (0 : ℤ) < typedNumber text := by omega
  have hamount := amount_of_onButtonClick hdigits (by omega) h
  rw [hrate] at hamount
  have hexact : contract.amount = rationalToInt64 ((issue.trx_num.tdiv 1000000 : ℤ) / issue.num *
      (typedNumber text : ℤ) * (1000000 : ℤ)) := hamount
  rw [hexact]
  exact whole_price_eq_iff hdrops htokens hcount hdvd

end Forms

/-! ## Given prices -/

/-- An issue of one account's asset, at a price. -/
def issueOf (trx_num num : ℤ) : AssetIssueContract where
  owner_address := aliceAddress
  name := assetName
  trx_num := trx_num
  num := num

/-- Its entry in the list. -/
def entryOf (issue : AssetIssueContract) : IssueItemData (rationals readDecimal) :=
  TokenListForm.itemData reference narrow (rationals readDecimal) issue

/-- The entry with the five units that are left. -/
def offerOf (issue : AssetIssueContract) : IssueItemData (rationals readDecimal) :=
  { entryOf issue with avaliable_count := 5 }

/-- Another account is logged in. -/
def bobWallet : Wallet where
  address_pair_ := Wallet.addressPair reference bobAddress

/-- A contract of that account, for some drops. -/
def boughtFor (amount : ℤ) : ParticipateAssetIssueContract where
  owner_address := bobAddress
  to_address := aliceAddress
  asset_name := assetName
  amount := amount

/-- The issuer has five units. -/
theorem offer_shown (trx_num num : ℤ) :
    MainWindow.onShowParticipate reference narrow (entryOf (issueOf trx_num num)) aliceAccount =
      some (offerOf (issueOf trx_num num)) := by
  have hdecode : addressDecodeBase58Check reference (wideToUTF8 narrow (utf8ToWide narrow.toWide
      (addressEncodeBase58Check reference aliceAddress))) = (true, aliceAddress) := by
    decide
  have hleft : aliceAccount.asset.lookup (wideToUTF8 narrow
      (utf8ToWide narrow.toWide assetName)) = some 5 := by decide
  unfold MainWindow.onShowParticipate
  dsimp only [offerOf, entryOf, TokenListForm.itemData, issueOf]
  rw [hdecode]
  dsimp only
  rw [hleft]

/-- Two units at two TRX for four cost one TRX. -/
theorem paysPrice_two : (boughtFor 1000000).amount = issuePrice (issueOf 2000000 4) 2 := by
  have htwo : typedNumber [50] = 2 := by decide
  have hbought : ParticipateForm.onButtonClick reference narrow bobWallet
      (offerOf (issueOf 2000000 4)) (widen [50]) = .ok (boughtFor 1000000) := by decide +kernel
  have hissue : [issueOf 2000000 4][0]? = some (issueOf 2000000 4) := rfl
  rw [← htwo, paysPrice_iff hissue rfl (offer_shown 2000000 4) (by decide) (by decide)
    (by decide) (by decide) (by decide) (by decide) (by decide) hbought]
  refine ⟨?_, ?_⟩ <;> decide

/-- Two units at one and a half TRX each are bought for two TRX. -/
theorem half_trx_unpaid :
    MainWindow.onShowParticipate reference narrow (entryOf (issueOf 1500000 1)) aliceAccount =
      some (offerOf (issueOf 1500000 1)) ∧
    ParticipateForm.onButtonClick reference narrow bobWallet (offerOf (issueOf 1500000 1))
      (widen [50]) = .ok (boughtFor 2000000) ∧
    (boughtFor 2000000).amount ≠ issuePrice (issueOf 1500000 1) 2 :=
  ⟨offer_shown 1500000 1, by decide +kernel, by decide⟩

end TronWallet.Theorems
