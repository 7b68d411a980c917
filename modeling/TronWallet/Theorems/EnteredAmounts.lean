import TronWallet.Reference.Rationals
import TronWallet.Theorems.SenderBalances

/-!
# The amount that has been entered

What the form does with an amount goes through four places: the table is filled by
`UpdteAddress`, the amount is compared with it by `GetSendInfo`, it is multiplied by
`ToDrop` when the button is pressed, and the contract is built from the product.  TRX are in
the table as whole TRX, since `ToTrx` divides integers, and assets in their own units; the
button multiplies both.

After a reply, and as long as no other reply comes, the table has the figures of that reply
(`lookup_afterReply`), whatever has been there before.  So everything that is accepted can
be computed from the reply (`accepted_cases`, `getSendInfo_of_valid`).  Amounts are exact
rational numbers throughout, and how a text is read is left open.
-/

set_option autoImplicit false

namespace TronWallet.Theorems

open TronWallet.Lib TronWallet.Lib.FixedWidth TronWallet.Lib.Rounding TronWallet.Model
  TronWallet.Reference

/-! ## The properties -/

/-- A transfer of `n` units of an asset of which there are `q` does not exceed them and
carries the number entered. -/
def CarriesEntered (q n : ℤ) (r : SendForm.SendRequest) : Prop :=
  n ≤ q ∧ ∃ transfer, r = .transferAsset transfer ∧ transfer.amount = n

/-- A transfer of TRX over `drops` is turned down for its amount exactly when there is less
than that, and carries the drops when it is accepted. -/
def ExactForDrops {D : Doubles} (P : Platform) (s : SendForm D) (to_text amount_text : Bytes)
    (balance drops : ℤ) : Prop :=
  ((s.getSendInfo P to_text amount_text).1 = .error "Balance is not sufficient" ↔
    balance < drops) ∧
    ∀ r, s.requested P (.send to_text amount_text) = some r →
      ∃ transfer, r = .createTransaction transfer ∧ transfer.amount = drops

/-- What a reply assigns to `TRX`: the balance in whole TRX, unless there is an asset of that
name. -/
def trxFigure (a : AccountMessage) : ℤ :=
  (a.asset.lookup trxName).getD (a.balance.tdiv trxDropRate)

/-- The drops are within the balance and within the figure of the table, or exceed both. -/
def SameSide (a : AccountMessage) (drops : ℤ) : Prop :=
  (drops ≤ a.balance ∧ drops ≤ trxFigure a * trxDropRate) ∨
    (a.balance < drops ∧ trxFigure a * trxDropRate < drops)

instance (a : AccountMessage) (drops : ℤ) : Decidable (SameSide a drops) := by
  unfold SameSide
  infer_instance

/-! ## The table after a reply -/

section Table

variable {D : Doubles} (P : Platform)

/-- No reply. -/
def NotReply : SendAction → Prop
  | .reply _ _ _ => False
  | _ => True

/-- The form after a reply, whatever it was before, and steps that are none. -/
def afterReply (o : Order) (a : AccountMessage) (s : SendForm D) (acts : List SendAction) :
    SendForm D := runFrom (SendForm.step P) (SendForm.onReply o a s) acts

/-- Looking up what is available keeps the entries there are. -/
theorem lookup_getAvaliable {s : SendForm D} {name : Bytes} {v : D.Number}
    (h : s.assert_.lookup name = some v) (type : Bytes) :
    (s.getAvaliable type).2.assert_.lookup name = some v := by
  change (UnorderedMap.emplace s.assert_ type (D.ofInt 0)).lookup name = some v
  rw [UnorderedMap.lookup_emplace]
  by_cases htype : name = type
  · rw [if_pos htype, ← htype, h, Option.getD_some]
  · rw [if_neg htype]
    exact h

/-- Looking up an entry that exists changes nothing. -/
theorem lookup_showAvaliable {s : SendForm D} {name : Bytes} {v : D.Number}
    (h : s.assert_.lookup name = some v) : s.showAvaliable.assert_.lookup name = some v := by
  unfold SendForm.showAvaliable
  cases s.curSel with
  | none => exact h
  | some cur => exact lookup_getAvaliable h _

/-- The button keeps them. -/
theorem lookup_getSendInfo {s : SendForm D} {name : Bytes} {v : D.Number}
    (h : s.assert_.lookup name = some v) (to_text amount_text : Bytes) :
    (s.getSendInfo P to_text amount_text).2.assert_.lookup name = some v := by
  unfold SendForm.getSendInfo
  split
  · exact h
  split
  · exact h
  split
  · exact h
  split
  · exact h
  split
  · exact h
  split
  · exact h
  split
  · exact h
  · rename_i cur _
    have hkept := lookup_getAvaliable h (s.token_.getD cur [])
    dsimp only
    split <;> exact hkept

/-- Every step that is no reply keeps them. -/
theorem lookup_step {s : SendForm D} {act : SendAction} {name : Bytes} {v : D.Number}
    (h : s.assert_.lookup name = some v) (hact : NotReply act) :
    (s.step P act).assert_.lookup name = some v := by
  cases act with
  | updateAddress address posted => exact h
  | actionBtnClick address posted =>
      change (s.onActionBtnClick P address posted).assert_.lookup name = some v
      unfold SendForm.onActionBtnClick
      split
      · exact h
      · exact h
  | reply o i a => exact hact.elim
  | selChanged i =>
      unfold SendForm.step
      dsimp only
      split
      · exact lookup_showAvaliable h
      · exact h
  | send to_text amount_text => exact lookup_getSendInfo P h to_text amount_text

/-- **The figures of a reply stay** until the next one comes. -/
theorem lookup_afterReply {o : Order} {a : AccountMessage} {s : SendForm D}
    {acts : List SendAction} (hacts : ∀ act ∈ acts, NotReply act) {name : Bytes} {v : D.Number}
    (hfigure : figure D a name = some v) :
    (afterReply P o a s acts).assert_.lookup name = some v := by
  have hreply : (SendForm.onReply o a s).assert_.lookup name = some v := by
    refine lookup_showAvaliable ?_
    rw [lookup_assignReply, hfigure, Option.some_or]
  have hsteps : EveryStep (SendForm.step P) (SendForm.onReply o a s)
      (fun _ _ act => NotReply act) acts := by
    intro before act rest hrun
    exact hacts act (by rw [hrun]; simp)
  exact hsteps.invariant (I := fun _ s => s.assert_.lookup name = some v) hreply
    fun _ _ hkept hact => lookup_step P hkept hact

end Table

/-! ## What is accepted -/

section Accepted

variable {D : Doubles} {P : Platform} {s : SendForm D} {to_text amount_text : Bytes}

/-- A transfer that is accepted has an amount above zero and within what is available. -/
theorem accepted_cases {cur : ℕ} {info : SendInfo D} (hsel : s.curSel = some cur)
    (h : s.accepted P (.send to_text amount_text) = some info) :
    D.stringToDouble amount_text = some info.amount ∧ D.le info.amount (D.ofInt 0) = false ∧
      D.gt info.amount (s.getAvaliable (s.token_.getD cur [])).1 = false ∧
      info.token_type = s.token_.getD cur [] := by
  change (s.getSendInfo P to_text amount_text).1.toOption = some info at h
  unfold SendForm.getSendInfo at h
  rw [hsel] at h
  dsimp only at h
  split at h
  · cases h
  split at h
  · cases h
  split at h
  · cases h
  split at h
  · cases h
  split at h
  · cases h
  next amount hamount =>
    split at h
    · cases h
    next hpos =>
      split at h
      · cases h
      next hgt =>
        obtain rfl := Option.some.inj h
        exact ⟨hamount, eq_false_of_ne_true hpos, eq_false_of_ne_true hgt, rfl⟩

/-- A form that is filled in is turned down for its amount alone. -/
theorem getSendInfo_of_valid {cur : ℕ} {toAddress : Bytes} {amount : D.Number}
    (hto : to_text ≠ []) (hdecode : addressDecodeBase58Check P to_text = (true, toAddress))
    (hself : s.address_ ≠ toAddress) (htext : amount_text ≠ [])
    (hamount : D.stringToDouble amount_text = some amount)
    (hpos : D.le amount (D.ofInt 0) = false) (hsel : s.curSel = some cur) :
    (s.getSendInfo P to_text amount_text).1 =
      if D.gt amount (s.getAvaliable (s.token_.getD cur [])).1 then
        .error "Balance is not sufficient"
      else .ok ⟨s.address_, toAddress, s.token_.getD cur [], amount⟩ := by
  unfold SendForm.getSendInfo
  rw [if_neg hto, hdecode, hsel]
  simp only [if_neg hself, if_neg htext, hamount, hpos, Bool.false_eq_true, if_false]
  split <;> rfl

end Accepted

/-! ## Assets -/

section Assets

variable {P : Platform} {read : Bytes → Option ℚ} {s : SendForm (rationals read).toDoubles}
  {o : Order} {a : AccountMessage} {acts : List SendAction}

/-- The request of an accepted number of an asset: not more than there is, a million times the
number, or what is left of it in 64 bits. -/
theorem asset_request (hacts : ∀ act ∈ acts, NotReply act) {name : Bytes} (hname : name ≠ trxName)
    {q : ℤ} (hasset : a.asset.lookup name = some q) {cur : ℕ}
    (hsel : (afterReply P o a s acts).curSel = some cur)
    (htype : (afterReply P o a s acts).token_.getD cur [] = name) {to_text amount_text : Bytes}
    {n : ℤ} (hread : read amount_text = some (n : ℚ)) {r : SendForm.SendRequest}
    (hreq : (afterReply P o a s acts).requested P (.send to_text amount_text) = some r) :
    0 < n ∧ n ≤ q ∧ ∃ transfer, r = .transferAsset transfer ∧
      transfer.amount = rationalToInt64 ((n * trxDropRate : ℤ) : ℚ) := by
  have hfigure : figure (rationals read).toDoubles a name = some (q : ℚ) := by
    unfold figure
    rw [hasset]
    rfl
  have hlookup := lookup_afterReply P (o := o) (s := s) hacts hfigure
  obtain ⟨info, hinfo, rfl⟩ := Option.map_eq_some_iff.mp hreq
  obtain ⟨hamount, hpos, hgt, htoken⟩ := accepted_cases hsel hinfo
  have hinfo' : info.amount = (n : ℚ) := Option.some.inj (hamount.symm.trans hread)
  have havail : ((afterReply P o a s acts).getAvaliable
      ((afterReply P o a s acts).token_.getD cur [])).1 = (q : ℚ) := by
    rw [htype]
    change ((afterReply P o a s acts).assert_.lookup name).getD _ = _
    rw [hlookup]
    rfl
  rw [hinfo'] at hpos hgt
  rw [havail] at hgt
  have hn : ¬(n : ℚ) ≤ (0 : ℤ) := of_decide_eq_false hpos
  have hq : ¬(q : ℚ) < n := of_decide_eq_false hgt
  refine ⟨by exact_mod_cast not_le.mp hn, by exact_mod_cast not_lt.mp hq,
    ⟨name, info.fromAddress, info.toAddress, rationalToInt64 ((n * trxDropRate : ℤ) : ℚ)⟩, ?_, rfl⟩
  unfold SendForm.createTransaction
  rw [htoken, htype, if_neg hname, hinfo', toDrop_rationals, Int.cast_mul]

/-- **No transfer of an asset carries the number entered**: it is multiplied by the drops of a
TRX although the balance it has been compared with is in units of the asset. -/
theorem asset_never_entered (hacts : ∀ act ∈ acts, NotReply act) {name : Bytes}
    (hname : name ≠ trxName) {q : ℤ} (hasset : a.asset.lookup name = some q) {cur : ℕ}
    (hsel : (afterReply P o a s acts).curSel = some cur)
    (htype : (afterReply P o a s acts).token_.getD cur [] = name) {to_text amount_text : Bytes}
    {n : ℤ} (hread : read amount_text = some (n : ℚ)) {r : SendForm.SendRequest}
    (hreq : (afterReply P o a s acts).requested P (.send to_text amount_text) = some r) :
    n ≤ q ∧ ¬CarriesEntered q n r := by
  obtain ⟨hpos, hle, transfer, rfl, hamount⟩ :=
    asset_request hacts hname hasset hsel htype hread hreq
  refine ⟨hle, ?_⟩
  rintro ⟨-, transfer', heq, hn⟩
  cases heq
  rw [hamount] at hn
  unfold rationalToInt64 at hn
  rw [truncate_intCast] at hn
  rw [show trxDropRate = 1000000 from rfl] at hn
  split at hn <;> omega

end Assets

/-! ## TRX -/

section Trx

variable {P : Platform} {read : Bytes → Option ℚ} {s : SendForm (rationals read).toDoubles}
  {o : Order} {a : AccountMessage} {acts : List SendAction}

/-- The figure of TRX after a reply. -/
theorem figure_trx (read : Bytes → Option ℚ) (a : AccountMessage) :
    figure (rationals read).toDoubles a trxName = some (trxFigure a : ℚ) := by
  unfold figure trxFigure
  cases a.asset.lookup trxName <;> rfl

/-- **Exactly when an amount of TRX is dealt with exactly**: when the drops are within the
balance and within the figure of the table, or exceed both. -/
theorem exactForDrops_iff (hbalance : 0 ≤ a.balance) (hbound : a.balance < 2 ^ 53)
    (hacts : ∀ act ∈ acts, NotReply act) {to_text toAddress : Bytes} (hto : to_text ≠ [])
    (hdecode : addressDecodeBase58Check P to_text = (true, toAddress))
    (hself : (afterReply P o a s acts).address_ ≠ toAddress) {cur : ℕ}
    (hsel : (afterReply P o a s acts).curSel = some cur)
    (htype : (afterReply P o a s acts).token_.getD cur [] = trxName) {amount_text : Bytes}
    (htext : amount_text ≠ []) {drops : ℤ} (hpos : 0 < drops)
    (hread : read amount_text = some (drops / trxDropRate : ℚ)) :
    ExactForDrops P (afterReply P o a s acts) to_text amount_text a.balance drops ↔
      SameSide a drops := by
  have hlookup := lookup_afterReply P (o := o) (s := s) hacts (figure_trx read a)
  have havail : ((afterReply P o a s acts).getAvaliable
      ((afterReply P o a s acts).token_.getD cur [])).1 = (trxFigure a : ℚ) := by
    rw [htype]
    change ((afterReply P o a s acts).assert_.lookup trxName).getD _ = _
    rw [hlookup]
    rfl
  have hrate : (0 : ℚ) < trxDropRate := by decide
  have hpositive : ¬(drops / trxDropRate : ℚ) ≤ (0 : ℤ) := by
    rw [Int.cast_zero, not_le]
    exact div_pos (by exact_mod_cast hpos) hrate
  have hle : decide ((drops / trxDropRate : ℚ) ≤ (0 : ℤ)) = false := decide_eq_false hpositive
  have hgt : (rationals read).gt (drops / trxDropRate : ℚ) (trxFigure a : ℚ) =
      decide (trxFigure a * trxDropRate < drops) := by
    refine decide_eq_decide.mpr ?_
    rw [lt_div_iff₀ hrate]
    exact_mod_cast Iff.rfl
  have hresult := getSendInfo_of_valid (s := afterReply P o a s acts) hto hdecode hself htext hread
    hle hsel
  rw [havail, hgt] at hresult
  have hreject : ((afterReply P o a s acts).getSendInfo P to_text amount_text).1 =
      .error "Balance is not sufficient" ↔ trxFigure a * trxDropRate < drops := by
    rw [hresult]
    by_cases hlt : trxFigure a * trxDropRate < drops
    · simp [hlt]
    · simp [hlt]
  unfold ExactForDrops SameSide
  rw [hreject]
  constructor
  · rintro ⟨hiff, -⟩
    by_cases hlt : a.balance < drops
    · exact Or.inr ⟨hlt, hiff.mpr hlt⟩
    · have hfigure := mt hiff.mp hlt
      exact Or.inl ⟨not_lt.mp hlt, not_lt.mp hfigure⟩
  · intro hside
    refine ⟨by omega, fun r hreq => ?_⟩
    obtain ⟨info, hinfo, rfl⟩ := Option.map_eq_some_iff.mp hreq
    obtain ⟨hamount, -, hgt', htoken⟩ := accepted_cases hsel hinfo
    have hinfo' : info.amount = (drops / trxDropRate : ℚ) :=
      Option.some.inj (hamount.symm.trans hread)
    rw [hinfo', havail, hgt] at hgt'
    have hwithin := of_decide_eq_false hgt'
    have hfits : Fits 64 drops := (fits_iff_of_nonneg hpos.le).mpr (by omega)
    have hproduct : (drops / trxDropRate * trxDropRate : ℚ) = (drops : ℤ) :=
      div_mul_cancel₀ _ hrate.ne'
    refine ⟨⟨info.fromAddress, info.toAddress, drops⟩, ?_, rfl⟩
    unfold SendForm.createTransaction
    rw [htoken, htype, if_pos rfl, hinfo', toDrop_rationals, hproduct,
      rationalToInt64_intCast hfits]

end Trx

/-! ## Given inputs -/

/-- An account is selected. -/
def selected (address : Bytes) : SendForm (rationals readDecimal).toDoubles :=
  { address_ := address }

/-- An account with five and a half TRX. -/
def halfAccount : AccountMessage where
  balance := 5500000

/-- The form with five units of an asset, which is selected, and five TRX. -/
def assetForm : SendForm (rationals readDecimal).toDoubles :=
  afterReply reference Order.held aliceAccount (selected aliceAddress) [.selChanged 0]

/-- Two units are entered, and a transfer of two million is asked for. -/
theorem asset_request_multiplied : assetForm.requested reference (.send bobText [50]) =
    some (.transferAsset ⟨assetName, aliceAddress, bobAddress, 2000000⟩) := by decide +kernel

/-- Two of five units: the request does not carry them. -/
theorem asset_never_entered_two : (2 : ℤ) ≤ 5 ∧ ¬CarriesEntered 5 2
    (.transferAsset ⟨assetName, aliceAddress, bobAddress, 2000000⟩) := by
  have hasset : aliceAccount.asset.lookup assetName = some 5 := by decide
  have hsel : assetForm.curSel = some 0 := by decide
  have htype : assetForm.token_.getD 0 [] = assetName := by decide
  have hread : readDecimal [50] = some ((2 : ℤ) : ℚ) := by decide +kernel
  have hacts : ∀ act ∈ [SendAction.selChanged 0], NotReply act := by simp [NotReply]
  exact asset_never_entered hacts (by decide) hasset hsel htype hread asset_request_multiplied

/-- Two units of an asset are entered, of which there are five, and a transfer of two million
is asked for. -/
theorem asset_transfer_multiplied :
    assetForm.requested reference (.send bobText [50]) =
      some (.transferAsset ⟨assetName, aliceAddress, bobAddress, 2000000⟩) ∧
    aliceAccount.asset.lookup assetName = some 5 ∧ readDecimal [50] = some ((2 : ℤ) : ℚ) ∧
    ¬CarriesEntered 5 2 (.transferAsset ⟨assetName, aliceAddress, bobAddress, 2000000⟩) := by
  refine ⟨asset_request_multiplied, by decide, by decide +kernel, ?_⟩
  rintro ⟨-, transfer, heq, hamount⟩
  cases heq
  exact absurd hamount (by decide)

/-- The form with five and a half TRX. -/
def halfForm : SendForm (rationals readDecimal).toDoubles :=
  afterReply reference Order.held halfAccount (selected aliceAddress) []

/-- The recipient is an address, and not the one selected; TRX are. -/
theorem halfForm_valid : addressDecodeBase58Check reference bobText = (true, bobAddress) ∧
    halfForm.address_ ≠ bobAddress ∧ halfForm.curSel = some 0 ∧
    halfForm.token_.getD 0 [] = trxName := by decide

/-- One and a half TRX are sent from five and a half. -/
theorem exactForDrops_half :
    ExactForDrops reference halfForm bobText [49, 46, 53] 5500000 1500000 := by
  obtain ⟨hdecode, hself, hsel, htype⟩ := halfForm_valid
  have hacts : ∀ act ∈ ([] : List SendAction), NotReply act := by simp
  have hread : readDecimal [49, 46, 53] = some ((1500000 : ℤ) / trxDropRate : ℚ) := by
    decide +kernel
  exact (exactForDrops_iff (a := halfAccount) (by decide) (by decide) hacts (by decide)
    hdecode hself hsel htype (by decide) (by decide) hread).mpr (by decide)

/-- All five and a half TRX are entered and turned down. -/
theorem whole_balance_rejected :
    readDecimal [53, 46, 53] = some ((5500000 : ℤ) / trxDropRate : ℚ) ∧
    (halfForm.getSendInfo reference bobText [53, 46, 53]).1 =
      .error "Balance is not sufficient" ∧
    ¬ExactForDrops reference halfForm bobText [53, 46, 53] 5500000 5500000 := by
  obtain ⟨hdecode, hself, hsel, -⟩ := halfForm_valid
  have hread : readDecimal [53, 46, 53] = some ((5500000 : ℤ) / trxDropRate : ℚ) := by
    decide +kernel
  have hamount : (rationals readDecimal).stringToDouble [53, 46, 53] =
      some ((5500000 : ℤ) / trxDropRate : ℚ) := hread
  have hto : bobText ≠ [] := by decide
  have htext : ([53, 46, 53] : Bytes) ≠ [] := by decide
  have hresult := getSendInfo_of_valid hto hdecode hself htext hamount (by decide +kernel) hsel
  rw [if_pos (by decide +kernel)] at hresult
  refine ⟨hread, hresult, ?_⟩
  rintro ⟨hiff, -⟩
  exact absurd (hiff.mp hresult) (by decide)

end TronWallet.Theorems
