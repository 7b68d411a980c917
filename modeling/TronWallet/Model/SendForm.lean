import TronWallet.Lib.UnorderedMap
import TronWallet.Model.Base58
import TronWallet.Model.Number
import TronWallet.Model.Transaction
import TronWallet.Model.UtfConversions

/-!
# The send form

`CSendForm` with the requests it has made and whose replies have not come: `pending` is not
a field of the form, it stands for the callbacks the network thread holds.  A reply may
come for any of them, or never.  The texts the user types are inputs of the step in which
the button is pressed, in UTF-8, and so is the order in which a loop visits the table.
-/

set_option autoImplicit false

namespace TronWallet.Model

open TronWallet.Lib

/-- The fields of an account that are read.
SOURCE: grpc_proto/tronprotocol/core/Tron.proto:34-79 -/
structure AccountMessage where
  balance : ℤ := 0
  asset : UnorderedMap Bytes ℤ := ∅

/-- SOURCE: wallet/gui/send_form.h:44-59 -/
structure SendForm (D : Doubles) where
  offline_ : Bool := false
  address_ : Bytes := []
  /-- The items of the box `token_`, as `WideToUTF8` gives them back, and the one that is
  selected. -/
  token_ : List Bytes := []
  curSel : Option ℕ := none
  assert_ : UnorderedMap Bytes D.Number := ∅
  /-- The addresses of the requests that wait for a reply. -/
  pending : List Bytes := []

/-- What `GetSendInfo` returns for a valid form. -/
structure SendInfo (D : Doubles) where
  fromAddress : Bytes
  toAddress : Bytes
  token_type : Bytes
  amount : D.Number

/-- A step of the form. -/
inductive SendAction where
  /-- `UpdteAddress` is called; whether `RPC_PROC` posts the request. -/
  | updateAddress (address : Bytes) (posted : Bool)
  /-- The button of an address in the list of addresses is pressed. -/
  | actionBtnClick (address : Bytes) (posted : Bool)
  /-- A reply comes for one of the requests. -/
  | reply (o : Order) (i : ℕ) (a : AccountMessage)
  /-- An item of the box is selected. -/
  | selChanged (i : ℕ)
  /-- The button to send is pressed. -/
  | send (to_text amount_text : Bytes)

namespace SendForm

variable {D : Doubles} (P : Platform)

/-- SOURCE: wallet/gui/send_form.cpp:32-50 -/
def start (D : Doubles) (offline : Bool) : SendForm D := { offline_ := offline }

/-! ## Selecting an account -/

/-- SOURCE: wallet/gui/send_form.cpp:72-75 -/
def updateAddress (s : SendForm D) (address : Bytes) (posted : Bool) : SendForm D :=
  { s with
    address_ := address
    pending := if posted then s.pending ++ [address] else s.pending }

/-- SOURCE: wallet/gui/addresses_action_form.cpp:170-181 -/
def parseAddress (address : Bytes) : Bytes :=
  match addressDecodeBase58Check P address with
  | (true, tron_add) => tron_add
  | (false, _) => []

/-- SOURCE: wallet/gui/addresses_action_form.cpp:183-193 -/
def onActionBtnClick (s : SendForm D) (address : Bytes) (posted : Bool) : SendForm D :=
  if parseAddress P address = [] then s else s.updateAddress (parseAddress P address) posted

/-- `operator[]`, which makes an entry of a name that has none.
SOURCE: wallet/gui/send_form.cpp:107-110 -/
def getAvaliable (s : SendForm D) (type : Bytes) : D.Number × SendForm D :=
  ((s.assert_.lookup type).getD (D.ofInt 0),
    { s with assert_ := UnorderedMap.emplace s.assert_ type (D.ofInt 0) })

/-- Looks up what the selected item has available.
SOURCE: wallet/gui/send_form.cpp:112-122 -/
def showAvaliable (s : SendForm D) : SendForm D :=
  match s.curSel with
  | some cur => (s.getAvaliable (s.token_.getD cur [])).2
  | none => s

/-- The table after the entries of a reply have been assigned.
SOURCE: wallet/gui/send_form.cpp:77-79 -/
def assignReply (o : Order) (a : AccountMessage) (assert_ : UnorderedMap Bytes D.Number) :
    UnorderedMap Bytes D.Number :=
  UnorderedMap.insertAll (assert_.insert trxName (toTrx D a.balance))
    ((o.iterate a.asset).map fun p => (p.1, D.ofInt p.2))

/-- What is read back from the item a name is added as: the name goes through 16-bit
characters, up to the first null character among them.
SOURCE: wallet/gui/send_form.cpp:84, 117-118, 240 -/
def itemText (name : Bytes) : Bytes :=
  wideToUTF8 utfConversions (wideCStr (utf8ToWide utfConversions.toWide name))

/-- The callback of `UpdteAddress`.
SOURCE: wallet/gui/send_form.cpp:76-92 -/
def onReply (o : Order) (a : AccountMessage) (s : SendForm D) : SendForm D :=
  let assert_ := assignReply o a s.assert_
  showAvaliable { s with
    assert_ := assert_
    token_ := (o.iterate assert_).map fun p => itemText p.1
    curSel := some 0 }

/-! ## The button to send -/

/-- Checks what has been entered: a message box, or what is to be sent, and the form
afterwards.
SOURCE: wallet/gui/send_form.cpp:189-257 -/
def getSendInfo (s : SendForm D) (to_text amount_text : Bytes) :
    Except String (SendInfo D) × SendForm D :=
  if to_text = [] then (.error "To address can't empty!", s)
  else
    match addressDecodeBase58Check P to_text with
    | (false, _) => (.error "Invalid to address", s)
    | (true, toAddress) =>
      if s.address_ = toAddress then (.error "Cannot transfer to yourself", s)
      else if amount_text = [] then (.error "Amount can't empty!", s)
      else
        match D.stringToDouble amount_text with
        | none => (.error "Invalid amount", s)
        | some amount =>
          if D.le amount (D.ofInt 0) then (.error "Amount must greater than 0", s)
          else
            match s.curSel with
            | none => (.ok ⟨s.address_, toAddress, [], amount⟩, s)
            | some cur =>
              let token_type := s.token_.getD cur []
              let (avaliable, s) := s.getAvaliable token_type
              if D.gt amount avaliable then (.error "Balance is not sufficient", s)
              else (.ok ⟨s.address_, toAddress, token_type, amount⟩, s)

/-- One step. -/
def step (s : SendForm D) : SendAction → SendForm D
  | .updateAddress address posted => s.updateAddress address posted
  | .actionBtnClick address posted => s.onActionBtnClick P address posted
  | .reply o i a =>
    if i < s.pending.length then onReply o a { s with pending := s.pending.eraseIdx i } else s
  | .selChanged i =>
    if i < s.token_.length then showAvaliable { s with curSel := some i } else s
  | .send to_text amount_text => (s.getSendInfo P to_text amount_text).2

/-- The transfer a step accepts. SOURCE: wallet/gui/send_form.cpp:164-174 -/
def accepted (s : SendForm D) : SendAction → Option (SendInfo D)
  | .send to_text amount_text => (s.getSendInfo P to_text amount_text).1.toOption
  | _ => none

/-- What the form asks the node to build. -/
inductive SendRequest where
  | createTransaction (transfer : TransferContract)
  | transferAsset (transfer : TransferAssetContract)
deriving DecidableEq

/-- SOURCE: wallet/gui/send_form.cpp:259-285 -/
def createTransaction (fromAddress toAddress type : Bytes) (amount : ℤ) : SendRequest :=
  if type = trxName then .createTransaction ⟨fromAddress, toAddress, amount⟩
  else .transferAsset ⟨type, fromAddress, toAddress, amount⟩

/-- The request of a transfer that is accepted, online or offline.
SOURCE: wallet/gui/send_form.cpp:153-174 -/
def requested (s : SendForm D) (a : SendAction) : Option SendRequest :=
  (s.accepted P a).map fun info =>
    createTransaction info.fromAddress info.toAddress info.token_type (toDrop D info.amount)

/-- What becomes of the transaction the node has answered. -/
inductive SendResult where
  | broadcast (t : Transaction)
  | createFailed (t : Transaction)
deriving DecidableEq

/-- The callback of `SendToken`. SOURCE: wallet/gui/send_form.cpp:310-322 -/
def onCreated (M : Messages) (now : ℤ) (t : Transaction) : Exec Wallet SendResult := do
  let (success, t) ← signTransaction P M now t
  return if success then .broadcast t else .createFailed t

/-- `SendToken`: the request it makes, and its callback with the time at which the reply
comes and the reply.
SOURCE: wallet/gui/send_form.cpp:308-326 -/
def sendToken (M : Messages) (fromAddress toAddress type : Bytes) (amount : ℤ) :
    SendRequest × (ℤ → Transaction → Exec Wallet SendResult) :=
  (createTransaction fromAddress toAddress type amount, onCreated P M)

/-- The reply a step delivers, with the address it was asked for. -/
def delivered (s : SendForm D) : SendAction → Option (Bytes × AccountMessage)
  | .reply _ i a => s.pending[i]?.map fun address => (address, a)
  | _ => none

end SendForm

end TronWallet.Model
