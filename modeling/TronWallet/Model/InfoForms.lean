import Mathlib.Data.Nat.Digits.Defs
import TronWallet.Model.Base58
import TronWallet.Model.Number
import TronWallet.Model.Transaction
import TronWallet.Model.TransactionManager

/-!
# What is shown before a transaction is signed

The three forms that show a loaded item: transfers, votes and the freezing of a balance.
`screen` is the texts a form shows, as `OnUICreate` makes them, and `sign` what its button
does in the cold wallet up to the dialog for the file, with the key it has used.

Texts on the screen are wide strings.  `UTF8ToWide` copies ASCII and leaves the rest to
`ConvertUnicode`, which is a parameter.
-/

set_option autoImplicit false

namespace TronWallet.Model

open TronWallet.Lib

/-! ## Messages -/

/-- SOURCE: grpc_proto/tronprotocol/core/Contract.proto:60-63 -/
structure Vote where
  vote_address : Bytes := []
  vote_count : ℤ := 0
deriving DecidableEq

/-- SOURCE: grpc_proto/tronprotocol/core/Contract.proto:59-67 -/
structure VoteWitnessContract where
  owner_address : Bytes := []
  votes : List Vote := []
  support : Bool := false
deriving DecidableEq

/-- SOURCE: grpc_proto/tronprotocol/core/Contract.proto:114-118 -/
structure FreezeBalanceContract where
  owner_address : Bytes := []
  frozen_balance : ℤ := 0
  frozen_duration : ℤ := 0
deriving DecidableEq

/-- What the forms use of the protobuf library. -/
structure FormMessages extends Messages where
  /-- `Any::UnpackTo` a `VoteWitnessContract`. -/
  unpackVoteWitness : AnyMessage → Option VoteWitnessContract
  /-- `Any::UnpackTo` a `FreezeBalanceContract`. -/
  unpackFreezeBalance : AnyMessage → Option FreezeBalanceContract

/-! ## Texts -/

/-- A `std::wstring`. -/
abbrev Wide := List UInt16

/-- A text of the program. -/
def ascii (s : String) : Wide := s.toList.map fun c => UInt16.ofNat c.toNat

/-- ASCII as wide characters. -/
def widen (b : Bytes) : Wide := b.map UInt8.toUInt16

/-- SOURCE: base/macros.cc:239-270 -/
def isStringASCII (b : Bytes) : Bool := b.all (· < 128)

/-- SOURCE: base/utf_string_conversions.cc:79-88 -/
def utf8ToWide (convertUnicode : Bytes → Wide) (utf8 : Bytes) : Wide :=
  if isStringASCII utf8 then widen utf8 else convertUnicode utf8

/-- The characters of a wide string up to its first zero (`c_str`). -/
def wideCStr (s : Wide) : Wide := s.takeWhile (· ≠ 0)

/-- The decimal digits of a number. -/
def decimal (n : ℕ) : Bytes :=
  if n = 0 then [48] else (Nat.digits 10 n).reverse.map fun d => UInt8.ofNat (48 + d)

/-- What `printf` writes for `%lld`. -/
def signedDecimal (n : ℤ) : Bytes := if n < 0 then 45 :: decimal n.natAbs else decimal n.natAbs

/-- `std::to_wstring`. -/
def toWstring (n : ℤ) : Wide := widen (signedDecimal n)

/-! ## The forms -/

/-- The texts of a form. -/
inductive Screen where
  | transaction (status str_amount inputs outputs : Wide)
  | freeze (status str_amount address : Wide)
  /-- The rows hold a name and a number of votes. -/
  | vote (status : Wide) (rows : List (Wide × Wide))
deriving DecidableEq

/-- The line with the status.
SOURCE: wallet/gui/transaction_info_form.cpp:44, freeze_info_form.cpp:30,
vote_info_form.cpp:77-78 -/
def statusText (signature : Bool) : Wide :=
  ascii (if signature then "Status: signed" else "Status: unsigned")

/-- Whether a transaction has a signature. -/
def hasSignature (t : Transaction) : Bool := 0 < t.signature.length

variable (P : Platform) (D : Doubles) (M : FormMessages) (convertUnicode : Bytes → Wide)

/-- An address on the screen. -/
def addressText (address : Bytes) : Wide :=
  utf8ToWide convertUnicode (addressEncodeBase58Check P address)

namespace TransactionInfoForm

/-- SOURCE: wallet/gui/transaction_info_form.h:10 -/
structure TransactionInfo where
  fromAddress : Bytes := []
  toAddress : Bytes := []
  name : Bytes := []
  amount : D.Number := D.ofInt 0
  signature : Bool := false

/-- SOURCE: wallet/gui/transaction_info_form.cpp:138-174 -/
def parseTransaction (t : Transaction) : TransactionInfo D :=
  match t.raw_data.contract with
  | [] => {}
  | contract :: _ =>
    match contract.type with
    | .TransferContract =>
      match M.unpackTransfer contract.parameter with
      | some transfer =>
        ⟨transfer.owner_address, transfer.to_address, trxName, toTrx D transfer.amount,
          hasSignature t⟩
      | none => {}
    | .TransferAssetContract =>
      match M.unpackTransferAsset contract.parameter with
      | some transfer_assert =>
        ⟨transfer_assert.owner_address, transfer_assert.to_address, transfer_assert.asset_name,
          D.ofInt transfer_assert.amount, hasSignature t⟩
      | none => {}
    | _ => {}

/-- The line with the amount. SOURCE: wallet/gui/transaction_info_form.cpp:45 -/
def amountText (amount : D.Number) (name : Bytes) : Wide :=
  ascii "Amount send: " ++ (widen (D.printf4 amount) ++
    32 :: wideCStr (utf8ToWide convertUnicode name))

/-- SOURCE: wallet/gui/transaction_info_form.cpp:36-64 -/
def screen (t : Transaction) : Screen :=
  let info := parseTransaction D M t
  .transaction (statusText info.signature) (amountText D convertUnicode info.amount info.name)
    (addressText P convertUnicode info.toAddress) (addressText P convertUnicode info.fromAddress)

/-- Signing for the address of a form, with the key looked up for it and what is saved;
`none` where a message says that it has failed.
SOURCE: wallet/gui/transaction_info_form.cpp:80-109 -/
def handleClickEvent (o : Order) (w : Wallet) (now later : ℤ) (address : Bytes)
    (t : Transaction) : Option (Secret × Transaction) :=
  if address = [] then none
  else if Wallet.lookupPrivate o w address = 0 then none
  else
    match signTransactionWith P M.toMessages (Wallet.lookupPrivate o w address) now later t with
    | (true, t) => some (Wallet.lookupPrivate o w address, t)
    | (false, _) => none

end TransactionInfoForm

namespace FreezeInfoForm

/-- SOURCE: wallet/gui/freeze_info_form.h:6 -/
structure FreezeInfo where
  owner_address : Bytes := []
  freeze_balance : ℤ := 0
  freeze_duration : ℤ := 0
  signature : Bool := false

/-- SOURCE: wallet/gui/freeze_info_form.cpp:60-82 -/
def parseTransaction (t : Transaction) : FreezeInfo :=
  match t.raw_data.contract with
  | [] => {}
  | contract :: _ =>
    match contract.type with
    | .FreezeBalanceContract =>
      match M.unpackFreezeBalance contract.parameter with
      | some freeze =>
        ⟨freeze.owner_address, freeze.frozen_balance, freeze.frozen_duration, hasSignature t⟩
      | none => {}
    | _ => {}

/-- The line with the amount. SOURCE: wallet/gui/freeze_info_form.cpp:31 -/
def amountText (freeze_balance : ℤ) : Wide :=
  ascii "Amount freeze: " ++ (toWstring freeze_balance ++ ascii " TRX")

/-- SOURCE: wallet/gui/freeze_info_form.cpp:24-45 -/
def screen (t : Transaction) : Screen :=
  let info := parseTransaction M t
  .freeze (statusText info.signature) (amountText info.freeze_balance)
    (addressText P convertUnicode info.owner_address)

end FreezeInfoForm

namespace VoteInfoForm

/-- The vote that is shown, if there is one. -/
def voteContract (t : Transaction) : Option VoteWitnessContract :=
  match t.raw_data.contract with
  | [] => none
  | contract :: _ =>
    match contract.type with
    | .VoteWitnessContract => M.unpackVoteWitness contract.parameter
    | _ => none

/-- `operator[]`: the entries it makes are empty texts.
SOURCE: wallet/gui/vote_info_form.cpp:117 -/
def nameOf (address_url : StringMap) (address : Bytes) : Bytes :=
  ((address_url.entries.find? fun e => e.1 = address).map Prod.snd).getD []

/-- The rows of the list. SOURCE: wallet/gui/vote_info_form.cpp:112-120 -/
def rows (address_url : StringMap) (votes : List Vote) : List (Wide × Wide) :=
  votes.map fun v =>
    (utf8ToWide convertUnicode (nameOf address_url (addressEncodeBase58Check P v.vote_address)),
      toWstring v.vote_count)

/-- SOURCE: wallet/gui/vote_info_form.cpp:74-125 -/
def screen (address_url : StringMap) (t : Transaction) : Screen :=
  .vote (statusText (hasSignature t))
    (rows P convertUnicode address_url (((voteContract M t).map VoteWitnessContract.votes).getD []))

/-- The owner of the vote, empty where there is none.
SOURCE: wallet/gui/vote_info_form.cpp:111 -/
def ownerAddress (t : Transaction) : Bytes :=
  match voteContract M t with
  | some vote_contract => addressEncodeBase58Check P vote_contract.owner_address
  | none => []

/-- Signing the vote; the key is not tested.
SOURCE: wallet/gui/vote_info_form.cpp:143-165 -/
def onButtonClick (o : Order) (w : Wallet) (now later : ℤ) (t : Transaction) :
    Option (Secret × Transaction) :=
  if ownerAddress P M t = [] then none
  else
    match signTransactionWith P M.toMessages (Wallet.lookupPrivate o w (ownerAddress P M t)) now
      later t with
    | (true, t) => some (Wallet.lookupPrivate o w (ownerAddress P M t), t)
    | (false, _) => none

end VoteInfoForm

/-! ## Loaded items -/

/-- An item of a list of loaded files. -/
inductive LoadedItem where
  | transaction (t : Transaction)
  | vote (v : VoteData)

/-- The form that shows an item. -/
inductive InfoForm where
  | transaction (t : Transaction)
  | freeze (t : Transaction)
  | vote (address_url : StringMap) (t : Transaction)

/-- The form made for an item; a vote without a transaction ends the program.
SOURCE: wallet/gui/loaded_form.h:48-75 -/
def createShowInfoControl : LoadedItem → Option InfoForm
  | .transaction t =>
    match t.raw_data.contract with
    | [] => none
    | contract :: _ =>
      match contract.type with
      | .TransferContract => some (.transaction t)
      | .TransferAssetContract => some (.transaction t)
      | .FreezeBalanceContract => some (.freeze t)
      | _ => none
  | .vote v => v.transaction.map fun t => .vote v.address_url t

namespace InfoForm

/-- The transaction of a form. -/
def content : InfoForm → Transaction
  | .transaction t => t
  | .freeze t => t
  | .vote _ t => t

/-- What a form shows. -/
def screen : InfoForm → Screen
  | .transaction t => TransactionInfoForm.screen P D M convertUnicode t
  | .freeze t => FreezeInfoForm.screen P M convertUnicode t
  | .vote address_url t => VoteInfoForm.screen P M convertUnicode address_url t

/-- What the button of a form does in the cold wallet; the address is the text of the field
that shows it.
SOURCE: wallet/gui/transaction_info_form.cpp:125-131, freeze_info_form.cpp:47-54 -/
def sign (o : Order) (w : Wallet) (now later : ℤ) : InfoForm → Option (Secret × Transaction)
  | .transaction t =>
    TransactionInfoForm.handleClickEvent P M o w now later
      (addressEncodeBase58Check P (TransactionInfoForm.parseTransaction D M t).fromAddress) t
  | .freeze t =>
    TransactionInfoForm.handleClickEvent P M o w now later
      (addressEncodeBase58Check P (FreezeInfoForm.parseTransaction M t).owner_address) t
  | .vote _ t => VoteInfoForm.onButtonClick P M o w now later t

end InfoForm

end TronWallet.Model
