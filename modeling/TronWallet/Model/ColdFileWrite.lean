import TronWallet.Model.AccountManager

/-!
# Writing a cold file, step by step

`base::file::WriteFile` opens the file, which truncates it, writes the bytes and closes it;
its result is not looked at.  Here the file may not open, and the process may stop at any
step of this.  `generateAddressWith` is `GenerateAddress` with the outcome of the write as an
input; where all goes well it is the `generateAddress` of the runs
(`generateAddressWith_written`).
-/

set_option autoImplicit false

namespace TronWallet.Model

open TronWallet.Lib

/-- How far a write gets. -/
inductive WriteOutcome where
  /-- The stream is not open. -/
  | notOpened
  /-- The process stops before the file is opened. -/
  | stoppedBefore
  /-- The process stops when so many bytes have been written to the truncated file. -/
  | stopped (n : ℕ)
  /-- The file is written and closed. -/
  | written
deriving DecidableEq

namespace WriteOutcome

/-- Whether the process has stopped. -/
def stops : WriteOutcome → Bool
  | .stoppedBefore | .stopped _ => true
  | .notOpened | .written => false

/-- The files after a write. SOURCE: base/file_util.cc:35-44 -/
def writeFile (outcome : WriteOutcome) (filepath content : Bytes)
    (files : UnorderedMap Bytes Bytes) : UnorderedMap Bytes Bytes :=
  match outcome with
  | .notOpened | .stoppedBefore => files
  | .stopped n => files.insert filepath (content.take n)
  | .written => files.insert filepath content

end WriteOutcome

namespace Wallet

variable (P : Platform)

/-- `GenerateAddress` up to the call that writes the file, which is given the name of the
file, the bytes and the address.
SOURCE: wallet/core/account_manager.cpp:86-116 -/
def generateAddressUpTo {α : Type} (o : Order) (d : GenerateDraws)
    (write : Bytes → Bytes → Bytes → Exec Wallet α) : Exec Wallet α := do
  openWallet o
  let k ← Exec.ofExcept (makeKey P d.seed d.rounds)
  let address := addressEncodeBase58Check P (toTronAddress k.m_address)
  modify fun w =>
    { w with address_lookup_ := UnorderedMap.emplace w.address_lookup_ d.uuid address
             cached_ := UnorderedMap.emplace w.cached_ d.uuid k.m_secret.m_data }
  let w ← get
  let bytes := P.jsonWrite (.dictionary (w.coldDictionary o))
  let (chipper, call) ← askKeyManager fun m =>
    m.encryptUseEncryptedKey P o bytes (toAddress w.Address)
  modify fun w => { w with host := call.elim w.host w.host.noteCtrCall }
  if chipper.length < bytes.length then throw .outOfBounds
  write (toHex w.Address) (chipper.take bytes.length) address

/-- Writes a cold file as far as it gets. -/
def writeColdFileWith (outcome : WriteOutcome) (name data : Bytes) : Exec Wallet Unit :=
  modify fun w =>
    if name = [] then w
    else { w with host := { w.host with
      coldWallet := outcome.writeFile name data w.host.coldWallet } }

/-- `GenerateAddress` when the write gets so far: the address it returns, none where the
process has stopped.
SOURCE: wallet/core/account_manager.cpp:86-118 -/
def generateAddressWith (outcome : WriteOutcome) (o : Order) (d : GenerateDraws) :
    Exec Wallet (Option Bytes) :=
  generateAddressUpTo P o d fun name data address => do
    writeColdFileWith outcome name data
    return if outcome.stops then none else some address

/-- The whole function is the part up to the write, and a write that succeeds. -/
theorem generateAddress_eq_upTo (o : Order) (d : GenerateDraws) :
    generateAddress P o d = generateAddressUpTo P o d fun name data address => do
      writeColdFile name data
      return address := rfl

/-- What is done with the result can be done at the write. -/
theorem map_generateAddressUpTo {α β : Type} (f : α → β) (o : Order) (d : GenerateDraws)
    (write : Bytes → Bytes → Bytes → Exec Wallet α) :
    f <$> generateAddressUpTo P o d write =
      generateAddressUpTo P o d fun name data address => f <$> write name data address := by
  simp only [generateAddressUpTo, map_bind, apply_ite (Functor.map f)]

/-- Where the write succeeds the function is the one of the runs. -/
theorem generateAddressWith_written (o : Order) (d : GenerateDraws) :
    generateAddressWith P .written o d = some <$> generateAddress P o d := by
  rw [generateAddress_eq_upTo, map_generateAddressUpTo]
  rfl

end Wallet

end TronWallet.Model
