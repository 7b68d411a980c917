import TronWallet.Reference.Rationals
import TronWallet.Theorems.SignedAsShown

/-!
# The amount a form shows

The line with the amount is read back: the third of its words is a number with a point or
without one, and what follows is the unit.  The number is right when it is the amount in
that unit up to half of the last place that is shown.

A transfer of TRX is shown in whole TRX with four places that are always zero, so it is
right when what has been dropped rounds to nothing; the units of an asset are shown as they
are; and a frozen balance is shown in drops under the name of TRX.
-/

set_option autoImplicit false

namespace TronWallet.Theorems

open TronWallet.Lib TronWallet.Model TronWallet.Analysis TronWallet.Reference

/-! ## The property -/

/-- The words after the first. -/
def afterBlank (line : Wide) : Wide := (line.dropWhile (· ≠ 32)).drop 1

/-- The digits of the number on a line, and how many of them follow the point. -/
def shownNumber (line : Wide) : Option (ℕ × ℕ) :=
  readFixed (((afterBlank (afterBlank line)).takeWhile (· ≠ 32)).map UInt16.toUInt8)

/-- The unit on a line. -/
def shownUnit (line : Wide) : Wide := afterBlank (afterBlank (afterBlank line))

/-- The line of a form with the amount, if it has one. -/
def amountLine : Screen → Option Wide
  | .transaction _ str_amount _ _ => some str_amount
  | .freeze _ str_amount _ => some str_amount
  | .vote _ _ => none

/-- A form shows an amount in a unit, to the places it shows. -/
def ShowsAmount (s : Screen) (unit : Wide) (amount : ℚ) : Prop :=
  ∃ line, amountLine s = some line ∧ shownUnit line = unit ∧ ∃ n places : ℕ,
    shownNumber line = some (n, places) ∧ |(n : ℚ) / 10 ^ places - amount| ≤ 1 / (2 * 10 ^ places)

/-- The amount of a contract: the unit, and the number in it. -/
def namedAmount (convertUnicode : Bytes → Wide) : Terms → Option (Wide × ℚ)
  | .transfer _ _ amount => some (widen trxName, amount / trxDropRate)
  | .transferAsset _ _ asset_name amount =>
    some (wideCStr (utf8ToWide convertUnicode asset_name), amount)
  | .freeze _ amount => some (widen trxName, amount / trxDropRate)
  | _ => none

/-- The number a contract holds. -/
def heldAmount : Terms → ℤ
  | .transfer _ _ amount => amount
  | .transferAsset _ _ _ amount => amount
  | .freeze _ amount => amount
  | _ => 0

/-- At most fifty drops above whole TRX are transferred, or an asset is, or nothing is
frozen. -/
def ShownRight : Terms → Prop
  | .transfer _ _ amount => amount % trxDropRate ≤ 50
  | .freeze _ amount => amount = 0
  | _ => True

/-! ## Reading a line -/

/-- A word is what stands before a blank. -/
theorem afterBlank_word {word rest : Wide} (h : 32 ∉ word) :
    afterBlank (word ++ 32 :: rest) = rest := by
  have hword : ∀ c ∈ word, decide (c ≠ 32) = true := by
    intro c hc
    rw [decide_eq_true_eq]
    rintro rfl
    exact h hc
  unfold afterBlank
  rw [List.dropWhile_append_of_pos hword, List.dropWhile_cons_of_neg (by decide)]
  rfl

/-- The third word of a line is the number, and the rest the unit. -/
theorem read_line (first second unit : Wide) {digits : Bytes} (hfirst : 32 ∉ first)
    (hsecond : 32 ∉ second) (hdigits : 32 ∉ digits) :
    shownNumber (first ++ 32 :: (second ++ 32 :: (widen digits ++ 32 :: unit))) =
        readFixed digits ∧
      shownUnit (first ++ 32 :: (second ++ 32 :: (widen digits ++ 32 :: unit))) = unit := by
  have hwide : (32 : UInt16) ∉ widen digits := by
    intro hmem
    obtain ⟨c, hc, hblank⟩ := List.mem_map.mp hmem
    have hc32 : c = 32 := UInt8.toUInt16_inj.mp hblank
    exact hdigits (hc32 ▸ hc)
  have hword : ∀ c ∈ widen digits, decide (c ≠ 32) = true := by
    intro c hc
    rw [decide_eq_true_eq]
    rintro rfl
    exact hwide hc
  have hnarrow : (widen digits).map UInt16.toUInt8 = digits := by
    unfold widen
    rw [List.map_map]
    conv_rhs => rw [← List.map_id digits]
    exact List.map_congr_left fun c _ => UInt8.toUInt8_toUInt16 c
  unfold shownNumber shownUnit
  rw [afterBlank_word hfirst, afterBlank_word hsecond, afterBlank_word hwide,
    List.takeWhile_append_of_pos hword, List.takeWhile_cons_of_neg (by decide), List.append_nil,
    hnarrow]
  exact ⟨rfl, rfl⟩

/-- The characters of a number with places are not blank. -/
theorem notMem_fixedPoint (places n : ℕ) : 32 ∉ fixedPoint places (n : ℚ) := by
  have hpadded : 32 ∉ padded places ((Rounding.nearest ((n : ℚ) * 10 ^ places)).natAbs %
      10 ^ places) := by
    intro hmem
    exact absurd ((digits_padded places _).1 32 hmem).1 (by decide)
  unfold fixedPoint
  rw [if_neg (not_lt.mpr (Nat.cast_nonneg n)), List.nil_append]
  intro hmem
  rcases List.mem_append.mp hmem with hwhole | hrest
  · exact notMem_decimal (by decide) _ hwhole
  · rcases List.mem_cons.mp hrest with hpoint | hfraction
    · exact absurd hpoint (by decide)
    · exact hpadded hfraction

section Lines

variable (read : Bytes → Option ℚ) (convertUnicode : Bytes → Wide)

/-- A whole number in a form of transfers. -/
theorem read_amountText (n : ℕ) (name : Bytes) :
    shownNumber (TransactionInfoForm.amountText (rationals read).toDoubles convertUnicode
        (n : ℚ) name) = some (n * 10 ^ 4, 4) ∧
      shownUnit (TransactionInfoForm.amountText (rationals read).toDoubles convertUnicode
        (n : ℚ) name) = wideCStr (utf8ToWide convertUnicode name) := by
  have hwords : ascii "Amount send: " = ascii "Amount" ++ 32 :: (ascii "send:" ++ [32]) := by
    decide
  have hline : TransactionInfoForm.amountText (rationals read).toDoubles convertUnicode
      (n : ℚ) name = ascii "Amount" ++ 32 :: (ascii "send:" ++ 32 ::
        (widen (fixedPoint 4 (n : ℚ)) ++ 32 :: wideCStr (utf8ToWide convertUnicode name))) := by
    unfold TransactionInfoForm.amountText
    rw [hwords]
    simp only [List.append_assoc, List.cons_append, List.nil_append]
    rfl
  obtain ⟨hnumber, hunit⟩ := read_line (ascii "Amount") (ascii "send:")
    (wideCStr (utf8ToWide convertUnicode name)) (by decide) (by decide) (notMem_fixedPoint 4 n)
  rw [hline, hnumber, hunit, readFixed_fixedPoint (by decide)]
  exact ⟨rfl, rfl⟩

/-- A number in the form of frozen balances. -/
theorem read_freezeText (n : ℕ) :
    shownNumber (FreezeInfoForm.amountText n) = some (n, 0) ∧
      shownUnit (FreezeInfoForm.amountText n) = widen trxName := by
  have hwords : ascii "Amount freeze: " = ascii "Amount" ++ 32 :: (ascii "freeze:" ++ [32]) := by
    decide
  have hsigned : signedDecimal (n : ℤ) = decimal n := by
    unfold signedDecimal
    rw [if_neg (by omega), Int.natAbs_natCast]
  have hline : FreezeInfoForm.amountText n = ascii "Amount" ++ 32 :: (ascii "freeze:" ++ 32 ::
      (widen (decimal n) ++ 32 :: widen trxName)) := by
    unfold FreezeInfoForm.amountText toWstring
    rw [hwords, hsigned]
    simp only [List.append_assoc, List.cons_append, List.nil_append]
    rfl
  obtain ⟨hnumber, hunit⟩ := read_line (ascii "Amount") (ascii "freeze:") (widen trxName)
    (by decide) (by decide) (notMem_decimal (by decide) n)
  rw [hline, hnumber, hunit, readFixed_decimal]
  exact ⟨rfl, rfl⟩

variable {read convertUnicode}

/-- A form that shows a number shows the amounts the number is next to. -/
theorem showsAmount_of_line {s : Screen} {line unit : Wide} {n places : ℕ} {amount : ℚ}
    (hline : amountLine s = some line) (hunit : shownUnit line = unit)
    (hnumber : shownNumber line = some (n, places)) :
    ShowsAmount s unit amount ↔ |(n : ℚ) / 10 ^ places - amount| ≤ 1 / (2 * 10 ^ places) := by
  constructor
  · rintro ⟨line', hline', -, n', places', hread, hle⟩
    obtain rfl := Option.some.inj (hline.symm.trans hline')
    obtain ⟨rfl, rfl⟩ := Prod.mk.inj (Option.some.inj (hnumber.symm.trans hread))
    exact hle
  · intro hle
    exact ⟨line, hline, hunit, n, places, hnumber, hle⟩

/-- A form of transfers that shows a whole number shows the amounts it is next to. -/
theorem showsAmount_transfer {s : Screen} {n : ℕ} {name : Bytes} {unit : Wide} {amount : ℚ}
    (hline : amountLine s = some (TransactionInfoForm.amountText (rationals read).toDoubles
      convertUnicode (n : ℚ) name)) (hunit : wideCStr (utf8ToWide convertUnicode name) = unit) :
    ShowsAmount s unit amount ↔ |(n : ℚ) - amount| ≤ 1 / 20000 := by
  obtain ⟨hnumber, hname⟩ := read_amountText read convertUnicode n name
  have hvalue : ((n * 10 ^ 4 : ℕ) : ℚ) / 10 ^ 4 = n := by
    push_cast
    ring
  have hplace : (1 : ℚ) / (2 * 10 ^ 4) = 1 / 20000 := by norm_num
  rw [showsAmount_of_line hline (hname.trans hunit) hnumber, hvalue, hplace]

/-- The form of frozen balances shows the amounts its number is next to. -/
theorem showsAmount_freeze {s : Screen} {n : ℕ} {amount : ℚ}
    (hline : amountLine s = some (FreezeInfoForm.amountText n)) :
    ShowsAmount s (widen trxName) amount ↔ |(n : ℚ) - amount| ≤ 1 / 2 := by
  obtain ⟨hnumber, hname⟩ := read_freezeText n
  rw [showsAmount_of_line hline hname hnumber, pow_zero, div_one, mul_one]

end Lines

/-! ## The amounts -/

/-- What is left when the drops below one TRX are dropped is next to the amount when they are
fifty at most. -/
theorem whole_trx_near_iff (drops : ℕ) :
    |((drops / 1000000 : ℕ) : ℚ) - (drops : ℚ) / 1000000| ≤ 1 / 20000 ↔ drops % 1000000 ≤ 50 := by
  have hsplit : (drops : ℚ) = 1000000 * (drops / 1000000 : ℕ) + (drops % 1000000 : ℕ) := by
    exact_mod_cast (Nat.div_add_mod drops 1000000).symm
  have hdistance : ((drops / 1000000 : ℕ) : ℚ) - (drops : ℚ) / 1000000 =
      -((drops % 1000000 : ℕ) / 1000000) := by
    rw [hsplit]
    field_simp
    ring
  rw [hdistance, abs_neg, abs_of_nonneg (by positivity),
    div_le_div_iff₀ (by norm_num) (by norm_num)]
  constructor
  · intro h
    have hnat : drops % 1000000 * 20000 ≤ 1 * 1000000 := by exact_mod_cast h
    omega
  · intro h
    have hnat : drops % 1000000 * 20000 ≤ 1 * 1000000 := by omega
    exact_mod_cast hnat

/-- A number of drops is next to the TRX it stands for when it is zero. -/
theorem drops_near_iff (drops : ℕ) :
    |(drops : ℚ) - (drops : ℚ) / 1000000| ≤ 1 / 2 ↔ drops = 0 := by
  have hdistance : (drops : ℚ) - (drops : ℚ) / 1000000 = drops * 999999 / 1000000 := by ring
  rw [hdistance, abs_of_nonneg (by positivity), div_le_div_iff₀ (by norm_num) (by norm_num)]
  constructor
  · intro h
    have hnat : drops * 999999 * 2 ≤ 1 * 1000000 := by exact_mod_cast h
    omega
  · rintro rfl
    norm_num

/-! ## The forms -/

section Forms

variable {P : Platform} {M : FormMessages} {read : Bytes → Option ℚ}
  {convertUnicode : Bytes → Wide}

/-- The name of TRX is shown whole. -/
theorem shownWhole_trxName : ShownWhole trxName := by
  intro c hc
  simp only [trxName, List.mem_cons, List.not_mem_nil, or_false] at hc
  rcases hc with rfl | rfl | rfl <;> decide

/-- A transaction is shown in one of two forms. -/
theorem form_of_created {t : Transaction} {f : InfoForm}
    (h : createShowInfoControl (.transaction t) = some f) : f = .transaction t ∨ f = .freeze t := by
  unfold createShowInfoControl at h
  dsimp only at h
  split at h
  · cases h
  · split at h
    · exact Or.inl (Option.some.inj h).symm
    · exact Or.inl (Option.some.inj h).symm
    · exact Or.inr (Option.some.inj h).symm
    · cases h

/-- The line of the form of transfers. -/
theorem amountLine_transaction {D : Doubles} {t : Transaction} :
    amountLine ((InfoForm.transaction t).screen P D M convertUnicode) =
      some (TransactionInfoForm.amountText D convertUnicode
        (TransactionInfoForm.parseTransaction D M t).amount
        (TransactionInfoForm.parseTransaction D M t).name) := rfl

section Lines

variable {t : Transaction} {c : Contract} {cs : List Contract}
  (hc : t.raw_data.contract = c :: cs)
include hc

/-- The line of a transfer. -/
theorem amountLine_transfer {owner toAddress : Bytes} {n : ℕ}
    (h : terms M c = .transfer owner toAddress n) :
    amountLine ((InfoForm.transaction t).screen P (rationals read).toDoubles M convertUnicode) =
      some (TransactionInfoForm.amountText (rationals read).toDoubles convertUnicode
        ((n / 1000000 : ℕ) : ℚ) trxName) := by
  have hwhole : toTrx (rationals read).toDoubles (n : ℤ) = ((n / 1000000 : ℕ) : ℚ) :=
    toTrx_rationals read n
  have hinfo := parse_transaction (D := (rationals read).toDoubles) (M := M) hc
  rw [h] at hinfo
  rw [amountLine_transaction, hinfo]
  exact congrArg (fun amount : ℚ => some (TransactionInfoForm.amountText
    (rationals read).toDoubles convertUnicode amount trxName)) hwhole

/-- The line of a transfer of an asset. -/
theorem amountLine_transferAsset {owner toAddress name : Bytes} {n : ℕ}
    (h : terms M c = .transferAsset owner toAddress name n) :
    amountLine ((InfoForm.transaction t).screen P (rationals read).toDoubles M convertUnicode) =
      some (TransactionInfoForm.amountText (rationals read).toDoubles convertUnicode (n : ℚ)
        name) := by
  have hunits : ((n : ℤ) : ℚ) = (n : ℚ) := Int.cast_natCast n
  have hinfo := parse_transaction (D := (rationals read).toDoubles) (M := M) hc
  rw [h] at hinfo
  rw [amountLine_transaction, hinfo]
  exact congrArg (fun amount : ℚ => some (TransactionInfoForm.amountText
    (rationals read).toDoubles convertUnicode amount name)) hunits

/-- The line of a frozen balance. -/
theorem amountLine_freeze {owner : Bytes} {n : ℕ} (h : terms M c = .freeze owner n) :
    amountLine ((InfoForm.freeze t).screen P (rationals read).toDoubles M convertUnicode) =
      some (FreezeInfoForm.amountText n) := by
  have hinfo := parse_freeze (M := M) hc
  rw [h] at hinfo
  have hfrozen : (FreezeInfoForm.parseTransaction M t).freeze_balance = n :=
    congrArg (fun x => x.2.2) hinfo
  change some (FreezeInfoForm.amountText (FreezeInfoForm.parseTransaction M t).freeze_balance) = _
  rw [hfrozen]

end Lines

/-- **Exactly when a form shows the amount of the contract.** -/
theorem showsAmount_iff {t : Transaction} {f : InfoForm} {c : Contract} {cs : List Contract}
    {unit : Wide} {amount : ℚ} (hform : createShowInfoControl (.transaction t) = some f)
    (hc : t.raw_data.contract = c :: cs)
    (hamount : namedAmount convertUnicode (terms M c) = some (unit, amount))
    (hheld : 0 ≤ heldAmount (terms M c)) :
    ShowsAmount (f.screen P (rationals read).toDoubles M convertUnicode) unit amount ↔
      ShownRight (terms M c) := by
  have hcontent : f.content.raw_data.contract = c :: cs := by
    rcases form_of_created hform with rfl | rfl <;> exact hc
  have hkind := kind_of_created (M := M) hform hcontent
  obtain ⟨n, hn⟩ := Int.eq_ofNat_of_zero_le hheld
  have hrate : (trxDropRate : ℤ) = 1000000 := rfl
  cases hT : terms M c with
  | transfer owner toAddress drops =>
      rw [hT] at hkind hamount hn
      obtain ⟨rfl, rfl⟩ := Prod.mk.inj (Option.some.inj hamount)
      obtain rfl : drops = n := hn
      have hunit : wideCStr (utf8ToWide convertUnicode trxName) = widen trxName :=
        shownName_of_whole shownWhole_trxName
      rcases form_of_created hform with rfl | rfl
      · rw [showsAmount_transfer (amountLine_transfer hc hT) hunit, hrate]
        push_cast
        rw [whole_trx_near_iff n]
        unfold ShownRight
        rw [hrate]
        omega
      · exact hkind.elim
  | transferAsset owner toAddress name units =>
      rw [hT] at hkind hamount hn
      obtain ⟨rfl, rfl⟩ := Prod.mk.inj (Option.some.inj hamount)
      obtain rfl : units = n := hn
      rcases form_of_created hform with rfl | rfl
      · rw [showsAmount_transfer (amountLine_transferAsset hc hT) rfl, Int.cast_natCast, sub_self,
          abs_zero]
        exact iff_of_true (by norm_num) trivial
      · exact hkind.elim
  | freeze owner drops =>
      rw [hT] at hkind hamount hn
      obtain ⟨rfl, rfl⟩ := Prod.mk.inj (Option.some.inj hamount)
      obtain rfl : drops = n := hn
      rcases form_of_created hform with rfl | rfl
      · exact hkind.elim
      · rw [showsAmount_freeze (amountLine_freeze hc hT), hrate]
        push_cast
        rw [drops_near_iff n]
        unfold ShownRight
        omega
  | vote owner votes =>
      rw [hT] at hamount
      cases hamount
  | other type parameter =>
      rw [hT] at hamount
      cases hamount

end Forms

/-! ## Given transactions -/

/-- The freezing of a balance of the wallet. -/
def freezeTransaction (frozen_balance : ℤ) : Transaction where
  raw_data := { contract := [freezeOf ownerAddress frozen_balance 3] }

/-- What the cold wallet shows of a transaction, with decimal numbers. -/
def shownOf (t : Transaction) : Option Screen :=
  (createShowInfoControl (.transaction t)).map fun f =>
    f.screen reference (rationals readDecimal).toDoubles messages widen

/-- The screen of a transfer. -/
def transferScreen (drops : ℤ) : Screen :=
  (InfoForm.transaction (transferTransaction drops [])).screen reference
    (rationals readDecimal).toDoubles messages widen

/-- The screen of a frozen balance. -/
def freezeScreen (drops : ℤ) : Screen :=
  (InfoForm.freeze (freezeTransaction drops)).screen reference
    (rationals readDecimal).toDoubles messages widen

/-- One TRX is shown as it is. -/
theorem showsAmount_one_trx :
    ShowsAmount (transferScreen 1000000) (widen trxName) ((1000000 : ℤ) / trxDropRate : ℚ) := by
  have hterms : terms messages (transferOf ownerAddress aliceAddress 1000000) =
      .transfer ownerAddress aliceAddress 1000000 := by decide
  have hshown : ShownRight (terms messages (transferOf ownerAddress aliceAddress 1000000)) := by
    rw [hterms]
    have hwhole : (1000000 : ℤ) % trxDropRate ≤ 50 := by decide
    exact hwhole
  refine (showsAmount_iff (t := transferTransaction 1000000 [])
    (c := transferOf ownerAddress aliceAddress 1000000) rfl rfl ?_ ?_).mpr hshown
  · rw [hterms]
    rfl
  · rw [hterms]
    decide

/-- One and a half TRX are shown as one, and one frozen TRX as a million. -/
theorem wrong_amounts_shown :
    shownOf (transferTransaction 1500000 []) = some (transferScreen 1500000) ∧
    amountLine (transferScreen 1500000) = some (ascii "Amount send: 1.0000 TRX") ∧
    ¬ShowsAmount (transferScreen 1500000) (widen trxName) ((1500000 : ℤ) / trxDropRate : ℚ) ∧
    shownOf (freezeTransaction 1000000) = some (freezeScreen 1000000) ∧
    amountLine (freezeScreen 1000000) = some (ascii "Amount freeze: 1000000 TRX") ∧
    ¬ShowsAmount (freezeScreen 1000000) (widen trxName) ((1000000 : ℤ) / trxDropRate : ℚ) := by
  have htransfer : terms messages (transferOf ownerAddress aliceAddress 1500000) =
      .transfer ownerAddress aliceAddress (1500000 : ℕ) := by decide
  have hfreeze : terms messages (freezeOf ownerAddress 1000000 3) =
      .freeze ownerAddress (1000000 : ℕ) := by decide
  refine ⟨rfl, by decide +kernel, ?_, rfl, by decide, ?_⟩
  · intro hshows
    have hnear := (showsAmount_transfer (amountLine_transfer (t := transferTransaction 1500000 [])
      rfl htransfer) (by decide)).mp hshows
    have hrest := (whole_trx_near_iff 1500000).mp hnear
    omega
  · intro hshows
    have hnear := (showsAmount_freeze (amountLine_freeze (t := freezeTransaction 1000000)
      rfl hfreeze)).mp hshows
    exact absurd ((drops_near_iff 1000000).mp hnear) (by decide)

end TronWallet.Theorems
