import TronWallet.Model.AccountManager

/-!
# Transactions and signing them

The messages of `core/Tron.proto` a transaction is made of, field by field, and the two
contracts the send form builds.  `Messages` is what the wallet uses of the protobuf
library and the code generated for it: the serialization of the raw data, which is what
gets hashed and signed, and the unpacking of a contract from its `Any`.

`SignTransaction` takes the clock as an input, like everything that is not determined by
the state.
-/

set_option autoImplicit false

namespace TronWallet.Model

/-! ## Messages -/

/-- SOURCE: grpc_proto/tronprotocol/core/Contract.proto:38-42 -/
structure TransferContract where
  owner_address : Bytes
  to_address : Bytes
  amount : ℤ
deriving DecidableEq

/-- SOURCE: grpc_proto/tronprotocol/core/Contract.proto:44-49 -/
structure TransferAssetContract where
  asset_name : Bytes
  owner_address : Bytes
  to_address : Bytes
  amount : ℤ
deriving DecidableEq

/-- The type of a contract; a message may carry a number that is none of them.
SOURCE: grpc_proto/tronprotocol/core/Tron.proto:137-155 -/
inductive ContractType where
  | AccountCreateContract
  | TransferContract
  | TransferAssetContract
  | VoteAssetContract
  | VoteWitnessContract
  | WitnessCreateContract
  | AssetIssueContract
  | DeployContract
  | WitnessUpdateContract
  | ParticipateAssetIssueContract
  | AccountUpdateContract
  | FreezeBalanceContract
  | UnfreezeBalanceContract
  | WithdrawBalanceContract
  | UnfreezeAssetContract
  | UpdateAssetContract
  | CustomContract
  | unknown (n : ℤ)
deriving DecidableEq

/-- `google.protobuf.Any`. -/
structure AnyMessage where
  type_url : Bytes := []
  value : Bytes := []
deriving DecidableEq

/-- SOURCE: grpc_proto/tronprotocol/core/Tron.proto:156-159 -/
structure Contract where
  type : ContractType := .AccountCreateContract
  parameter : AnyMessage := {}
  provider : Bytes := []
  ContractName : Bytes := []
deriving DecidableEq

/-- SOURCE: grpc_proto/tronprotocol/core/Tron.proto:20-23 -/
structure AccountId where
  name : Bytes := []
  address : Bytes := []
deriving DecidableEq

/-- SOURCE: grpc_proto/tronprotocol/core/Tron.proto:82-85 -/
structure Acuthrity where
  account : Option AccountId := none
  permission_name : Bytes := []
deriving DecidableEq

/-- SOURCE: grpc_proto/tronprotocol/core/Tron.proto:172-185 -/
structure RawData where
  ref_block_bytes : Bytes := []
  ref_block_num : ℤ := 0
  ref_block_hash : Bytes := []
  expiration : ℤ := 0
  auths : List Acuthrity := []
  data : Bytes := []
  contract : List Contract := []
  scripts : Bytes := []
  timestamp : ℤ := 0
deriving DecidableEq

/-- SOURCE: grpc_proto/tronprotocol/core/Tron.proto:163-170 -/
structure TransactionResult where
  fee : ℤ := 0
  ret : ℤ := 0
deriving DecidableEq

/-- SOURCE: grpc_proto/tronprotocol/core/Tron.proto:135-191 -/
structure Transaction where
  raw_data : RawData := {}
  signature : List Bytes := []
  ret : List TransactionResult := []
deriving DecidableEq

/-- What is used of the protobuf library. -/
structure Messages where
  /-- `Transaction_raw::SerializeAsString`. -/
  serializeRaw : RawData → Bytes
  /-- `Any::UnpackTo` a `TransferContract`. -/
  unpackTransfer : AnyMessage → Option TransferContract
  /-- `Any::UnpackTo` a `TransferAssetContract`. -/
  unpackTransferAsset : AnyMessage → Option TransferAssetContract

/-! ## Signing -/

/-- The milliseconds added to the time for the expiration.
SOURCE: wallet/core/core_util.cpp:10 -/
def transactionDelayTime : ℤ := 8 * 60 * 60 * 1000

variable (P : Platform) (M : Messages)

/-- The signature of raw data under a key. -/
def signatureOf (key : Secret) (raw : RawData) : Bytes :=
  (P.sign key (P.sha256 (M.serializeRaw raw))).m_data

/-- Adds the signature of the raw data once for each contract, and tells whether there is
one. -/
def addSignatures (key : Secret) (t : Transaction) : Bool × Transaction :=
  if 0 < t.raw_data.contract.length then
    (true, { t with signature := t.signature ++
      List.replicate t.raw_data.contract.length (signatureOf P M key t.raw_data) })
  else (false, t)

/-- Adding signatures succeeds when there is a contract, and does nothing else. -/
theorem addSignatures_eq_true {key : Secret} {t signed : Transaction}
    (h : addSignatures P M key t = (true, signed)) : t.raw_data.contract ≠ [] ∧
      signed = { t with
        signature := t.signature ++
          List.replicate t.raw_data.contract.length (signatureOf P M key t.raw_data) } := by
  unfold addSignatures at h
  split at h
  next hlen =>
    cases h
    exact ⟨List.ne_nil_of_length_pos hlen, rfl⟩
  · cases h

/-- Signing with a given key, the clock being read twice.
SOURCE: wallet/core/core_util.cpp:96-119 -/
def signTransactionWith (key : Secret) (now later : ℤ) (t : Transaction) : Bool × Transaction :=
  if key.m_data = [] then (false, t)
  else addSignatures P M key { t with raw_data :=
    { t.raw_data with expiration := now + transactionDelayTime, timestamp := later } }

/-- Signing with the key of the account logged in.
SOURCE: wallet/core/core_util.cpp:121-148 -/
def signTransaction (now : ℤ) (t : Transaction) : Exec Wallet (Bool × Transaction) := do
  let w ← get
  if w.Address = [] then return (false, t)
  let key ← Wallet.getPrivate P (toAddress w.Address)
  if key.m_data = [] then return (false, t)
  return addSignatures P M key { t with raw_data := { t.raw_data with timestamp := now } }

end TronWallet.Model
