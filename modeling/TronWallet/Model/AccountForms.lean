import TronWallet.Lib.FixedWidth
import TronWallet.Model.InfoForms
import TronWallet.Model.SendForm

/-!
# What the forms of an account share

The forms that vote, freeze, issue a token and take part in an issue all make a contract
from what has been entered, ask the node for the account that owns it, and go on only if
the account exists.  Here are the fields of that account, its frozen balances, and what the
forms use of `double` beyond the two conversions.
-/

set_option autoImplicit false

namespace TronWallet.Model

open TronWallet.Lib.FixedWidth

/-- The fields of an account that are read next to its balances.
SOURCE: grpc_proto/tronprotocol/core/Tron.proto:34-79 -/
structure FormAccount extends AccountMessage where
  address : Bytes := []
  /-- The `frozen_balance` of each of the entries. -/
  frozen : List ℤ := []

/-- What the forms use of `double`. -/
structure FormDoubles extends Doubles where
  div : Number → Number → Number
  /-- What `printf` writes for `%.6f`. -/
  printf6 : Number → Bytes

variable (U : Unicode)

/-- The frozen balances added up in 64 bits.
SOURCE: wallet/core/core_util.cpp:158-167 -/
def calcTronPower (account : FormAccount) : ℤ :=
  account.frozen.foldl (fun freeze frozen_balance => wrap 64 (freeze + frozen_balance)) 0

/-- The message for an account the node does not know.
SOURCE: wallet/gui/vote_form.cpp:320, freeze_form.cpp:97, token_issue_form.cpp:197,
participate_form.cpp:196 -/
def accountNotExists (P : Platform) (owner_address : Bytes) : Wide :=
  ascii "Account " ++ (wideCStr (addressText P U.toWide owner_address) ++ ascii " not exists")

end TronWallet.Model
