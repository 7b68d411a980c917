import TronWallet.Model.AccountForms
import TronWallet.Model.StringNumber

/-!
# Issuing a token, changing it and taking part in an issue

The form that issues a token, the form that changes one, the list of the tokens that have
been issued, and the form that takes part in one of them.  An entry of the list is passed
on to the last form through the main window, which asks for what the issuer has left.

The setters of a contract take the type of the field: what is assigned to it is converted.
The texts of the edits and the clock are inputs of the button; `getTime` is the C library's
reading of a date.
-/

set_option autoImplicit false

namespace TronWallet.Model

open TronWallet.Lib.FixedWidth

/-! ## Messages -/

/-- The fields that are set or read.
SOURCE: grpc_proto/tronprotocol/core/Contract.proto:79-100 -/
structure AssetIssueContract where
  owner_address : Bytes := []
  name : Bytes := []
  total_supply : ℤ := 0
  trx_num : ℤ := 0
  num : ℤ := 0
  start_time : ℤ := 0
  end_time : ℤ := 0
  description : Bytes := []
  url : Bytes := []
deriving DecidableEq

/-- SOURCE: grpc_proto/tronprotocol/core/Contract.proto:132-138 -/
structure UpdateAssetContract where
  owner_address : Bytes := []
  description : Bytes := []
  url : Bytes := []
  new_limit : ℤ := 0
  new_public_limit : ℤ := 0
deriving DecidableEq

/-- SOURCE: grpc_proto/tronprotocol/core/Contract.proto:102-107 -/
structure ParticipateAssetIssueContract where
  owner_address : Bytes := []
  to_address : Bytes := []
  asset_name : Bytes := []
  amount : ℤ := 0
deriving DecidableEq

variable (P : Platform) (U : Unicode) (D : FormDoubles)

/-! ## Issuing -/

namespace TokenIssueForm

/-- The texts of the edits. SOURCE: wallet/gui/token_issue_form.cpp:18-31 -/
structure Edits where
  token_name : Wide
  totle_supply : Wide
  trx_amount : Wide
  token_amount : Wide
  description : Wide
  url : Wide
  start_date : Wide
  end_date : Wide

/-- `Check`: the text of an edit, which may not be empty.
SOURCE: wallet/gui/token_issue_form.cpp:107-114 -/
def check (text : Wide) (error_msg : String) : Except Wide Bytes :=
  if wideToUTF8 U text = [] then .error (ascii error_msg) else .ok (wideToUTF8 U text)

/-- `CheckNum`: the number of a text, which must be positive.
SOURCE: wallet/gui/token_issue_form.cpp:116-126 -/
def checkNum (num_text : Bytes) (err : String) : Except Wide ℤ :=
  let num := (stringToInt64 num_text).2
  if num ≤ 0 then .error (ascii err) else .ok num

/-- `CheckDataTime`. SOURCE: wallet/gui/token_issue_form.cpp:128-139 -/
def checkDataTime (getTime : Bytes → ℕ) (text : Wide) : Except Wide ℕ :=
  let time := getTime (wideToUTF8 U text)
  if time = 0 then .error (ascii "Date time format error!") else .ok time

/-- The checks, and the contract of a form that passes them.
SOURCE: wallet/gui/token_issue_form.cpp:94-191 -/
def checkAndIssue (getTime : Bytes → ℕ) (w : Wallet) (currentTimeMillis : ℕ) (e : Edits) :
    Except Wide AssetIssueContract := do
  let name ← check U e.token_name "Please input token name!"
  let supply ← check U e.totle_supply "Please input total supply!"
  let supply_num ← checkNum supply "Total supply must greater than 0!"
  let trx ← check U e.trx_amount "Please input trx amount!"
  let trx_num ← checkNum trx "TRX amount must greater than 0!"
  let token ← check U e.token_amount "Please input token amount!"
  let token_num ← checkNum token "Token amount must greater than 0!"
  let description ← check U e.description "Please input description!"
  let url ← check U e.url "Please input url!"
  let stime ← checkDataTime U getTime e.start_date
  let etime ← checkDataTime U getTime e.end_date
  if stime < currentTimeMillis then throw (ascii "Start time should be greater than now")
  if etime < stime then throw (ascii "End time should be greater than start time")
  return {
    owner_address := w.Address
    name := name
    total_supply := supply_num
    trx_num := wrap 32 (toDrop D.toDoubles (D.ofInt trx_num))
    num := wrap 32 token_num
    start_time := wrap 64 stime
    end_time := wrap 64 etime
    description := description
    url := url }

/-- The callback with the account: a message box, or the contract that is submitted.
SOURCE: wallet/gui/token_issue_form.cpp:193-221 -/
def onAccount (contract : AssetIssueContract) (a : FormAccount) : Except Wide AssetIssueContract :=
  if a.address = [] then .error (accountNotExists U P contract.owner_address)
  else if D.gt (D.ofInt 1024) (toTrx D.toDoubles a.balance) then
    .error (ascii "Balance must be greater than 1024")
  else .ok contract

end TokenIssueForm

/-! ## Changing -/

namespace TokenModifyForm

/-- The constant is a `long`, which has 32 bits on the target.
SOURCE: wallet/gui/token_modify_form.cpp:10 -/
def oneDayNetLimit : ℤ := wrap 32 57600000000

/-- The texts of the edits. SOURCE: wallet/gui/token_modify_form.cpp:12-19 -/
structure Edits where
  description : Wide
  url : Wide
  bandwidth_limit : Wide
  total_bandwidth_limit : Wide

/-- The variables the checks assign. SOURCE: wallet/gui/token_modify_form.cpp:55-57 -/
structure Inputs where
  valid : Bool := false
  desc_ : Bytes := []
  url_ : Bytes := []
  new_limit : ℤ := 0
  new_public_limit : ℤ := 0

/-- The checks, up to the first message box; what has been assigned by then stays.
SOURCE: wallet/gui/token_modify_form.cpp:58-110 -/
def checkInputs (e : Edits) : Option Wide × Inputs :=
  let s : Inputs := {}
  if e.description = [] then (some (ascii "Please input description!"), s)
  else
    let s := { s with desc_ := wideToUTF8 U e.description }
    if e.url = [] then (some (ascii "Please input url!"), s)
    else
      let s := { s with url_ := wideToUTF8 U e.url }
      if e.bandwidth_limit = [] then (some (ascii "Please bandwidth limit!"), s)
      else
        let s := { s with new_limit := (stringToInt64 (wideToUTF8 U e.bandwidth_limit)).2 }
        if s.new_limit < 0 ∨ oneDayNetLimit ≤ s.new_limit then
          (some (ascii "Invalid bandwidth limit"), s)
        else if e.total_bandwidth_limit = [] then
          (some (ascii "Please input total bandwidth limit!"), s)
        else
          let s := { s with
            new_public_limit := (stringToInt64 (wideToUTF8 U e.total_bandwidth_limit)).2 }
          if s.new_public_limit < 0 ∨ oneDayNetLimit ≤ s.new_public_limit then
            (some (ascii "Invalid total bandwidth limit"), s)
          else (none, { s with valid := true })

/-- The message box, and the contract that is passed to `UpdateAsset`: the test that follows
the checks is `if (true)`, not of `valid`.
SOURCE: wallet/gui/token_modify_form.cpp:50-137 -/
def onButtonClick (w : Wallet) (e : Edits) : Option Wide × Option UpdateAssetContract :=
  let (message, s) := checkInputs U e
  let contract : UpdateAssetContract := {
    owner_address := w.Address
    url := s.url_
    description := s.desc_
    new_limit := s.new_limit
    new_public_limit := s.new_public_limit }
  (message, some contract)

end TokenModifyForm

/-! ## The list of tokens -/

/-- SOURCE: wallet/gui/token_list_form.h:9-21 -/
structure IssueItemData where
  name : Wide := []
  issuer : Wide := []
  total_supply : ℕ := 0
  start_time : ℕ := 0
  end_time : ℕ := 0
  description : Wide := []
  url : Wide := []
  avaliable_count : ℤ := 0
  exchange_rate : D.Number := D.ofInt 0

namespace TokenListForm

/-- The conversion to an unsigned number of 64 bits. -/
def toUint64 (n : ℤ) : ℕ := (n % 2 ^ 64).toNat

/-- The entry of a token; the last division is that of `double`.
SOURCE: wallet/gui/token_list_form.cpp:131-140 -/
def itemData (issue : AssetIssueContract) : IssueItemData D where
  url := utf8ToWide U.toWide issue.url
  name := utf8ToWide U.toWide issue.name
  issuer := utf8ToWide U.toWide (addressEncodeBase58Check P issue.owner_address)
  total_supply := toUint64 issue.total_supply
  start_time := toUint64 issue.start_time
  end_time := toUint64 issue.end_time
  description := utf8ToWide U.toWide issue.description
  exchange_rate := D.div (toTrx D.toDoubles issue.trx_num) (D.ofInt issue.num)

/-- SOURCE: wallet/gui/token_list_form.cpp:122-145 -/
def updateIssueList (issue_list : List AssetIssueContract) : List (IssueItemData D) :=
  issue_list.map (itemData P U D)

end TokenListForm

namespace MainWindow

variable {D}

/-- What the form that takes part is given for an entry, with the issuer's account; none if
the issuer is no address.
SOURCE: wallet/gui/main_window.cpp:455-480 -/
def onShowParticipate (data : IssueItemData D) (account : AccountMessage) :
    Option (IssueItemData D) :=
  match addressDecodeBase58Check P (wideToUTF8 U data.issuer) with
  | (false, _) => none
  | (true, _) =>
    match account.asset.lookup (wideToUTF8 U data.name) with
    | some amount => some { data with avaliable_count := amount }
    | none => some data

end MainWindow

/-! ## Taking part -/

namespace ParticipateForm

variable {D}

/-- Pressing the button: a message box, or the contract.
SOURCE: wallet/gui/participate_form.cpp:124-161, 185-191 -/
def onButtonClick (w : Wallet) (data : IssueItemData D) (amount_text : Wide) :
    Except Wide ParticipateAssetIssueContract :=
  if w.checkLogin = false then .error (ascii "Please Login first")
  else if amount_text = [] then .error (ascii "Please input amount")
  else
    let amount := (stringToInt64 (wideToUTF8 U amount_text)).2
    if data.avaliable_count < amount then
      .error (ascii "Participate amount greater than rest amount.")
    else
      let trx_num := D.mul data.exchange_rate (D.ofInt amount)
      let toAddress := (addressDecodeBase58Check P (wideToUTF8 U data.issuer)).2
      if w.Address = toAddress then .error (ascii "Cannot participate asset issue yourself!")
      else .ok ⟨w.Address, toAddress, wideToUTF8 U data.name, toDrop D.toDoubles trx_num⟩

/-- The callback of `Participate` with the account: a message box, or the contract that is
submitted.
SOURCE: wallet/gui/participate_form.cpp:193-217 -/
def onAccount (contract : ParticipateAssetIssueContract) (account : FormAccount) :
    Except Wide ParticipateAssetIssueContract :=
  if account.address = [] then .error (accountNotExists U P contract.owner_address)
  else .ok contract

end ParticipateForm

end TronWallet.Model
