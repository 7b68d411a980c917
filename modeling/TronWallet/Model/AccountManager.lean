import TronWallet.Model.KeyManager
import TronWallet.Model.Base58
import TronWallet.Lib.GuardedRun

/-!
# The account manager

`AccountManager` is a process-wide singleton: the key manager once it is opened, the
address of the account logged in, and the two tables of the cold wallet, which hold the
decrypted keys of generated addresses under random identifiers.  A `Wallet` is that
object together with the files.

Everything random is an input of the operation that draws it, and so is the order in
which hash tables are visited.  A run is a sequence of `Action`s; an operation that
throws leaves the object as far as it came, and the run goes on from there.
-/

set_option autoImplicit false

namespace TronWallet.Model

open TronWallet.Lib

/-- The account manager and the files. SOURCE: wallet/core/account_manager.h:49-57 -/
structure Wallet where
  m_keyManager : Option KeyManager := none
  address_pair_ : Bytes × Bytes := ([], [])
  address_lookup_ : UnorderedMap H128 Bytes := ∅
  cached_ : UnorderedMap H128 Bytes := ∅
  host : Host := {}

/-- What `CreateAccount` draws: the secret `MakeKey` starts from and the rounds its loop
takes at most, the identifier, the salt and the initialisation vector of the key file, the
default password and the salt of a keys file to be created. -/
structure CreateDraws where
  seed : Secret
  rounds : ℕ
  uuid : H128
  salt : H256
  iv : H128
  default : H256
  fileSalt : H256

/-- What `GenerateAddress` draws: the secret `MakeKey` starts from and the rounds its loop
takes at most, and the identifier. -/
structure GenerateDraws where
  seed : Secret
  rounds : ℕ
  uuid : H128

namespace Wallet

variable (P : Platform)

/-- A call on the key manager, which has to be there. -/
def withKeyManager {α : Type} (f : Exec Opened α) : Exec Wallet α := fun w =>
  match w.m_keyManager with
  | none => .error .nullPointer w
  | some m =>
    match f { m := m, host := w.host } with
    | .ok a s => .ok a { w with m_keyManager := some s.m, host := s.host }
    | .error e s => .error e { w with m_keyManager := some s.m, host := s.host }

/-- A constant call on the key manager, which has to be there. -/
def askKeyManager {α : Type} (f : KeyManager → Except Exn α) : Exec Wallet α := do
  let w ← get
  match w.m_keyManager with
  | none => throw .nullPointer
  | some m => Exec.ofExcept (f m)

/-! ## Sessions -/

/-- SOURCE: wallet/core/account_manager.cpp:21-24 -/
def Address (w : Wallet) : Bytes := w.address_pair_.1

/-- Whether an account is logged in. SOURCE: wallet/core/account_manager.cpp:38-47 -/
def checkLogin (w : Wallet) : Bool := decide (w.Address ≠ [])

/-- The pair of an address and its encoded text. -/
def addressPair (address : Bytes) : Bytes × Bytes := (address, addressEncodeBase58Check P address)

/-- SOURCE: wallet/core/account_manager.cpp:31-36 -/
def logout (o : Order) : Exec Wallet Unit := do
  let w ← get
  withKeyManager (KeyManager.clear P o (toAddress w.Address))
  modify fun w => { w with address_pair_ := ([], []) }

/-- SOURCE: wallet/core/account_manager.cpp:54-60 -/
def getAccountName : Exec Wallet Bytes := do
  let w ← get
  if w.Address = [] then return []
  askKeyManager fun m => .ok (m.accountName (toAddress w.Address))

/-- SOURCE: wallet/core/account_manager.cpp:236-241 -/
def openWallet (o : Order) : Exec Wallet Unit :=
  modify fun w => match w.m_keyManager with
    | none => { w with m_keyManager := some (KeyManager.new o w.host) }
    | some _ => w

/-- The loop of `MakeKey` with the rounds left to it. -/
def makeKeyLoop : ℕ → KeyPair → Except Exn KeyPair
  | 0, k => if k.m_address.byte 0 = 0 then .ok k else .error .stillLooping
  | rounds + 1, k =>
    if k.m_address.byte 0 = 0 then .ok k
    else makeKeyLoop rounds (P.keyPair (P.sha3 k.m_secret.m_data))

/-- A key pair whose address begins with a zero byte.
SOURCE: wallet/core/account_manager.cpp:227-234 -/
def makeKey (seed : Secret) (rounds : ℕ) : Except Exn KeyPair :=
  makeKeyLoop P rounds (P.keyPair seed)

/-- SOURCE: wallet/core/account_manager.cpp:62-73 -/
def createAccount (o : Order) (name password : Bytes) (d : CreateDraws) : Exec Wallet Unit := do
  openWallet o
  let k ← Exec.ofExcept (makeKey P d.seed d.rounds)
  let _ ← withKeyManager
    (KeyManager.import P o k.m_secret name password [] d.uuid d.salt d.iv)
  let address := toTronAddress k.m_address
  modify fun w => { w with address_pair_ := addressPair P address }
  let w ← get
  if KeyManager.fileExists w.host = false then
    withKeyManager (KeyManager.create P o password d.default d.fileSalt)

/-- SOURCE: wallet/core/account_manager.cpp:81-84 -/
def getPrivate (address : Model.Address) : Exec Wallet Secret := do
  let w ← get
  match w.m_keyManager with
  | none => throw .nullPointer
  | some m =>
    let (s, m) ← Exec.ofExcept (m.secret P address)
    set { w with m_keyManager := some m }
    return s

/-- `"no account exist."` -/
def noAccountExist : Bytes :=
  [110, 111, 32, 97, 99, 99, 111, 117, 110, 116, 32, 101, 120, 105, 115, 116, 46]

/-- `"password not right"` -/
def passwordNotRight : Bytes :=
  [112, 97, 115, 115, 119, 111, 114, 100, 32, 110, 111, 116, 32, 114, 105, 103, 104, 116]

/-- The loop of `Login` over the identifiers in the store; what it returns is the address
found, empty when there is none.
SOURCE: wallet/core/account_manager.cpp:199-213 -/
def loginLoop (o : Order) (password : Bytes) : List H128 → Exec Wallet Bytes
  | [] => return []
  | u :: us => do
    let s ← withKeyManager (do
      let w ← get
      let (s, store) ← Exec.ofExcept (w.m.m_store.secret P u (.ok password))
      set { w with m := { w.m with m_store := store } }
      return s)
    if s ≠ [] then
      withKeyManager (KeyManager.importExisting P o u [] password [])
      let a ← askKeyManager fun m => .ok (m.address u)
      let address := toTronAddress a
      modify fun w => { w with address_pair_ := addressPair P address }
      return address
    else loginLoop o password us

/-- SOURCE: wallet/core/account_manager.cpp:187-225 -/
def login (o : Order) (password : Bytes) : Exec Wallet Bytes := do
  openWallet o
  let keys ← askKeyManager fun m => .ok (m.m_store.keys o)
  if keys = [] then return noAccountExist
  let address ← loginLoop P o password keys
  if address = [] then return passwordNotRight
  let _ ← withKeyManager (KeyManager.load P password)
  return []

/-! ## The cold wallet -/

/-- Writes a cold address file. The empty name is that of the directory, where writing
fails, which is not noticed. -/
def writeColdFile (name data : Bytes) : Exec Wallet Unit := modify fun w =>
  if name = [] then w
  else { w with host := { w.host with coldWallet := w.host.coldWallet.insert name data } }

/-- The dictionary `GenerateAddress` writes: each cached key under its address.
SOURCE: wallet/core/account_manager.cpp:100-107 -/
def coldDictionary (o : Order) (w : Wallet) : Dictionary :=
  (o.iterate w.cached_).foldl (fun root p =>
    match w.address_lookup_.lookup p.1 with
    | some address => Dictionary.setString address (toHex p.2) root
    | none => root) []

/-- SOURCE: wallet/core/account_manager.cpp:86-118 -/
def generateAddress (o : Order) (d : GenerateDraws) : Exec Wallet Bytes := do
  openWallet o
  let k ← Exec.ofExcept (makeKey P d.seed d.rounds)
  let address := addressEncodeBase58Check P (toTronAddress k.m_address)
  modify fun w =>
    { w with address_lookup_ := UnorderedMap.emplace w.address_lookup_ d.uuid address
             cached_ := UnorderedMap.emplace w.cached_ d.uuid k.m_secret.m_data }
  let w ← get
  let bytes := P.jsonWrite (.dictionary (w.coldDictionary o))
  let (chipper, call) ← askKeyManager fun m =>
    m.encryptUseEncryptedKey P o bytes (toAddress w.Address)
  modify fun w => { w with host := call.elim w.host w.host.noteCtrCall }
  -- As many bytes as the text has are read from the cipher text.
  if chipper.length < bytes.length then throw .outOfBounds
  writeColdFile (toHex w.Address) (chipper.take bytes.length)
  return address

/-- One entry of a dictionary that was read: a string under a key that is not empty is
noted under an identifier just drawn.
SOURCE: wallet/core/account_manager.cpp:145-152 -/
def noteLoaded (w : Wallet) (uuid : H128) (address : Bytes) (value : Value) : Wallet :=
  match value with
  | .string v =>
    if address = [] then w
    else { w with cached_ := UnorderedMap.emplace w.cached_ uuid (fromHex v)
                  address_lookup_ := UnorderedMap.emplace w.address_lookup_ uuid address }
  | _ => w

/-- The loop over the entries of a dictionary, from the `i`-th identifier to be drawn on. -/
def noteAllLoaded (uuids : ℕ → H128) : ℕ → Dictionary → Wallet → Wallet
  | _, [], w => w
  | i, (address, value) :: root, w =>
    noteAllLoaded uuids (i + 1) root (noteLoaded w (uuids i) address value)

/-- SOURCE: wallet/core/account_manager.cpp:120-158 -/
def loadAddresses (o : Order) (uuids : ℕ → H128) : Exec Wallet Unit := do
  let w ← get
  if UnorderedMap.isEmpty w.cached_ = false ∧ UnorderedMap.isEmpty w.address_lookup_ = false then
    return ()
  match w.host.coldWallet.lookup (toHex w.Address) with
  | none => return ()
  | some data =>
    let decrypted ← askKeyManager fun m =>
      m.decryptUseEncryptedKey P o data (toAddress w.Address)
    match P.jsonRead decrypted with
    | some (.dictionary root) => set (noteAllLoaded uuids 0 root w)
    | _ => return ()

/-- SOURCE: wallet/core/account_manager.cpp:160-169 -/
def getAddresses (o : Order) (uuids : ℕ → H128) : Exec Wallet (List Bytes) := do
  let w ← get
  if UnorderedMap.isEmpty w.cached_ ∨ UnorderedMap.isEmpty w.address_lookup_ then
    loadAddresses P o uuids
  let w ← get
  return (o.iterate w.address_lookup_).map Prod.snd

/-- The key of a cold address, zero when there is none.
SOURCE: wallet/core/account_manager.cpp:171-185 -/
def lookupPrivate (o : Order) (w : Wallet) (address : Bytes) : Secret :=
  match (o.iterate w.address_lookup_).find? fun p => p.2 = address with
  | none => 0
  | some p =>
    match w.cached_.lookup p.1 with
    | some key => FixedHash.ofBytes key
    | none => 0

end Wallet

/-! ## Runs -/

/-- What the user and the operating system may do, each with the order in which tables are
visited and with what is drawn. -/
inductive Action where
  /-- The process ends and a new one begins. -/
  | restart
  | createAccount (o : Order) (name password : Bytes) (d : CreateDraws)
  | login (o : Order) (password : Bytes)
  | logout (o : Order)
  | generateAddress (o : Order) (d : GenerateDraws)
  | loadAddresses (o : Order) (uuids : ℕ → H128)
  | getAddresses (o : Order) (uuids : ℕ → H128)

namespace Wallet

variable (P : Platform)

/-- The state an action leaves, whether the operation returns or throws. -/
def step (w : Wallet) : Action → Wallet
  | .restart => { host := w.host }
  | .createAccount o name password d => Exec.finalState (createAccount P o name password d) w
  | .login o password => Exec.finalState (login P o password) w
  | .logout o => Exec.finalState (logout P o) w
  | .generateAddress o d => Exec.finalState (generateAddress P o d) w
  | .loadAddresses o uuids => Exec.finalState (loadAddresses P o uuids) w
  | .getAddresses o uuids => Exec.finalState (getAddresses P o uuids) w

/-- The state after a run of actions from a computer on which the wallet has never run. -/
def run (as : List Action) : Wallet := runFrom (step P) {} as

end Wallet

end TronWallet.Model
