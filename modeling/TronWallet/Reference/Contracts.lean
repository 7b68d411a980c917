import TronWallet.Model.InfoForms
import TronWallet.Reference.Formats

/-!
# The contracts in their wire format

The contracts the forms read, packed in an `Any` under the name of their message and read
back from it, for runs on given inputs.
-/

set_option autoImplicit false

namespace TronWallet.Reference

open TronWallet.Model

/-- A text of ASCII characters. -/
def asciiBytes (s : String) : Bytes := s.toList.map fun c => UInt8.ofNat c.toNat

/-- `Any::PackFrom`. -/
def packed (name : String) (value : Bytes) : AnyMessage where
  type_url := asciiBytes "type.googleapis.com/" ++ asciiBytes name
  value := value

/-- `Any::UnpackTo`: the name of the message follows the last slash. -/
def unpackTo {α : Type} (name : String) (read : List (ℕ × Wire) → α) (p : AnyMessage) :
    Option α :=
  if (p.type_url.reverse.takeWhile (· ≠ 47)).reverse = asciiBytes name then
    (fieldsOf p.value).map read
  else none

/-- SOURCE: grpc_proto/tronprotocol/core/Contract.proto:38-42 -/
def transferOf (owner toAddress : Bytes) (amount : ℤ) : Contract where
  type := .TransferContract
  parameter := packed "protocol.TransferContract"
    (bytesField 1 owner ++ bytesField 2 toAddress ++ numberField 3 amount)

/-- SOURCE: grpc_proto/tronprotocol/core/Contract.proto:114-118 -/
def freezeOf (owner : Bytes) (frozen_balance frozen_duration : ℤ) : Contract where
  type := .FreezeBalanceContract
  parameter := packed "protocol.FreezeBalanceContract"
    (bytesField 1 owner ++ numberField 2 frozen_balance ++ numberField 3 frozen_duration)

/-- The votes of a contract; one that cannot be read is empty. -/
def votesOf (fields : List (ℕ × Wire)) : List Vote :=
  (texts fields 2).map fun b =>
    let vote := (fieldsOf b).getD []
    { vote_address := text vote 1, vote_count := number vote 2 }

/-- The messages. -/
def messages : FormMessages where
  serializeRaw := writeRaw
  unpackTransfer := unpackTo "protocol.TransferContract" fun f =>
    { owner_address := text f 1, to_address := text f 2, amount := number f 3 }
  unpackTransferAsset := unpackTo "protocol.TransferAssetContract" fun f =>
    { asset_name := text f 1, owner_address := text f 2, to_address := text f 3
      amount := number f 4 }
  unpackVoteWitness := unpackTo "protocol.VoteWitnessContract" fun f =>
    { owner_address := text f 1, votes := votesOf f, support := number f 3 ≠ 0 }
  unpackFreezeBalance := unpackTo "protocol.FreezeBalanceContract" fun f =>
    { owner_address := text f 1, frozen_balance := number f 2, frozen_duration := number f 3 }

/-- A number field holds a number of 64 bits. -/
theorem number_bounds (fields : List (ℕ × Wire)) (field : ℕ) :
    -2 ^ 63 ≤ number fields field ∧ number fields field < 2 ^ 63 := by
  unfold number
  dsimp only
  split <;> omega

end TronWallet.Reference
