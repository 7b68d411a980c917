import TronWallet.Model.AccountForms
import TronWallet.Model.StringNumber

/-!
# The freeze form

`CFreezeForm`: the contract made from the amount that has been entered, and the check of
the account's balance before the node is asked to freeze it.
-/

set_option autoImplicit false

namespace TronWallet.Model

open TronWallet.Lib.FixedWidth

/-- SOURCE: wallet/gui/freeze_form.h:30-33 -/
structure FreezeForm where
  address_ : Bytes := []

namespace FreezeForm

variable (P : Platform) (U : Unicode)

/-- The contract for the text of the edit, or a message box.
SOURCE: wallet/gui/freeze_form.cpp:55-83 -/
def createContract (s : FreezeForm) (amount_text : Wide) : Except Wide FreezeBalanceContract :=
  if amount_text = [] then .error (ascii "Amount can't empty.")
  else
    let amount := (stringToInt64 (wideToUTF8 U amount_text)).2
    if amount ≤ 0 then .error (ascii "Frozen balance must be positive")
    else .ok ⟨s.address_, wrap 64 (amount * 1000000), 3⟩

/-- The callback of the button with the account: a message box, or the contract that is
passed to `FreezeBalance`.
SOURCE: wallet/gui/freeze_form.cpp:93-107 -/
def onAccount (contract : FreezeBalanceContract) (a : FormAccount) :
    Except Wide FreezeBalanceContract :=
  if a.address = [] then .error (accountNotExists U P contract.owner_address)
  else if a.balance < contract.frozen_balance then
    .error (ascii "Frozen balance must be less than account balance.")
  else .ok contract

/-- Pressing the button, with the account the node answers.
SOURCE: wallet/gui/freeze_form.cpp:86-107 -/
def onButtonClick (s : FreezeForm) (amount_text : Wide) (a : FormAccount) :
    Except Wide FreezeBalanceContract := do
  let contract ← s.createContract U amount_text
  onAccount P U contract a

end FreezeForm

end TronWallet.Model
