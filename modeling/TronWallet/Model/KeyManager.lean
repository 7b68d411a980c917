import TronWallet.Model.Rlp
import TronWallet.Model.SecretStore

/-!
# The key manager

`KeyManager` of the wallet: two tables that translate between addresses and identifiers,
the information kept for each address, the passwords cached by their hash, and the keys
file in which all but the passwords is written, under a key derived from a password and
the salt file.

Members that may throw are calls on an `Opened`, the key manager together with the files
it works on.  `DontKnowThrow`, the default answer to a question for a password, throws;
no caller in the wallet passes another one.
-/

set_option autoImplicit false

namespace TronWallet.Model

open TronWallet.Lib

/-- SOURCE: wallet/core/key_manager.h:37-46 -/
structure KeyInfo where
  passHash : H256 := 0
  accountName : Bytes := []
  passwordHint : Bytes := []
deriving DecidableEq

/-- SOURCE: wallet/core/key_manager.h:190-209 -/
structure KeyManager where
  m_uuidLookup : UnorderedMap H128 Address := ∅
  m_addrLookup : UnorderedMap Address H128 := ∅
  m_keyInfo : UnorderedMap Address KeyInfo := ∅
  m_passwordHint : UnorderedMap H256 Bytes := ∅
  m_cachedPasswords : UnorderedMap H256 Bytes := ∅
  m_defaultPasswordDeprecated : Bytes := []
  m_keysFileKey : H128 := 0
  m_master : H256 := 0
  m_store : SecretStore := {}

/-- A key manager and the files it works on. -/
structure Opened where
  m : KeyManager
  host : Host

namespace KeyManager

variable (P : Platform) (m : KeyManager)

/-! ## Tables and passwords -/

/-- Noting which identifier belongs to an address. -/
def noteLookup (uuid : H128) (addr : Address) : KeyManager :=
  { m with m_addrLookup := m.m_addrLookup.insert addr uuid
           m_uuidLookup := m.m_uuidLookup.insert uuid addr }

/-- The constructor: the store is read, and the tables are filled from it.
SOURCE: wallet/core/key_manager.cpp:39-48 -/
def new (o : Order) (host : Host) : KeyManager :=
  let store := SecretStore.load host
  (o.iterate store.m_keys).foldl (fun m e => m.noteLookup e.1 e.2.address) { m_store := store }

/-- SOURCE: wallet/core/key_manager.cpp:178-184 -/
def uuid (a : Address) : H128 := (m.m_addrLookup.lookup a).getD 0

/-- SOURCE: wallet/core/key_manager.cpp:186-192 -/
def address (uuid : H128) : Address := (m.m_uuidLookup.lookup uuid).getD 0

/-- SOURCE: wallet/core/key_manager.cpp:353-357 -/
def hashPassword (pass : Bytes) : H256 :=
  FixedHash.ofBytes (P.pbkdf2 pass m.m_defaultPasswordDeprecated iterations 32)

/-- SOURCE: wallet/core/key_manager.cpp:359-362 -/
def cachePassword (pass : Bytes) : KeyManager :=
  { m with m_cachedPasswords := m.m_cachedPasswords.insert (m.hashPassword P pass) pass }

/-- The password with a given hash; with `DontKnowThrow` an uncached one is unknown.
SOURCE: wallet/core/key_manager.cpp:159-176 -/
def passwordOfHash (passHash : H256) : Except Exn Bytes :=
  match m.m_cachedPasswords.lookup passHash with
  | some p => .ok p
  | none => .error .passwordUnknown

/-- The hash of the password of a key, zero when none is noted. -/
def passHashOf (uuid : H128) : H256 :=
  match m.m_uuidLookup.lookup uuid with
  | none => 0
  | some a =>
    match m.m_keyInfo.lookup a with
    | none => 0
    | some info => info.passHash

/-- SOURCE: wallet/core/key_manager.cpp:146-157 -/
def getPassword (uuid : H128) : Except Exn Bytes := m.passwordOfHash (m.passHashOf uuid)

/-- SOURCE: wallet/core/key_manager.h:165 -/
def defaultPassword : Except Exn Bytes := m.passwordOfHash m.m_master

/-- The secret of an address, with the password cache in use.
SOURCE: wallet/core/key_manager.cpp:133-144 -/
def secret (a : Address) : Except Exn (Secret × KeyManager) :=
  match m.m_addrLookup.lookup a with
  | none => .error .outOfRange
  | some uuid => do
    let (key, store) ← m.m_store.secret P uuid (m.getPassword uuid)
    .ok (FixedHash.ofBytes key, { m with m_store := store })

/-- The name of an account, empty when nothing is noted for the address.
SOURCE: wallet/core/key_manager.cpp:326-336 -/
def accountName (a : Address) : Bytes :=
  match m.m_keyInfo.lookup a with
  | some info => info.accountName
  | none => []

/-! ## The keys file -/

/-- Whether there is a keys file with its salt. SOURCE: wallet/core/key_manager.cpp:53-56 -/
def fileExists (host : Host) : Bool := host.salt ≠ [] ∧ host.keys ≠ []

/-- The key of the keys file for a password. SOURCE: wallet/core/key_manager.cpp:84, 375 -/
def fileKey (pass salt : Bytes) : H128 := FixedHash.ofBytes (P.pbkdf2 pass salt iterations 16)

/-- One account in the keys file. SOURCE: wallet/core/key_manager.cpp:389-394 -/
def appendInfo (s : RLPStream) (info : Address × KeyInfo) : Except Exn RLPStream := do
  let id := m.uuid info.1
  let ki := info.2
  let s ← s.appendList 5
  let s ← s.append info.1.m_data
  let s ← s.append id.m_data
  let s ← s.append ki.passHash.m_data
  let s ← s.append ki.accountName
  s.append ki.passwordHint

/-- One password hint in the keys file. SOURCE: wallet/core/key_manager.cpp:397-398 -/
def appendHint (s : RLPStream) (i : H256 × Bytes) : Except Exn RLPStream := do
  let s ← s.appendList 2
  let s ← s.append i.1.m_data
  s.append i.2

/-- The text of the keys file. SOURCE: wallet/core/key_manager.cpp:385-399 -/
def fileText (o : Order) : Except Exn Bytes := do
  let s : RLPStream := {}
  let s ← s.appendList 4
  let s ← s.appendInt 1 -- version
  let s ← s.appendList (o.iterate m.m_keyInfo).length
  let s ← (o.iterate m.m_keyInfo).foldlM m.appendInfo s
  let s ← s.appendList (o.iterate m.m_passwordHint).length
  let s ← (o.iterate m.m_passwordHint).foldlM appendHint s
  let s ← s.append m.m_defaultPasswordDeprecated
  s.out

/-- Writes the keys file under a key, and caches the master password, which is unknown if
it has not been cached before.
SOURCE: wallet/core/key_manager.cpp:383-404 -/
def writeKey (o : Order) (key : H128) : Exec Opened Unit := do
  let w ← get
  let text ← Exec.ofExcept (w.m.fileText o)
  let call := { site := .keysFile, key := key, iv := 0, plain := text }
  set { m := { w.m with m_keysFileKey := key },
        host := { w.host.noteCtrCall call with keys := P.encryptSymNoAuth key 0 text } : Opened }
  let p ← Exec.ofExcept w.m.defaultPassword
  modify fun w => { w with m := w.m.cachePassword P p }

/-- Writes the keys file under the key in use, if there is one.
SOURCE: wallet/core/key_manager.cpp:364-370 -/
def write (o : Order) : Exec Opened Bool := do
  let w ← get
  if w.m.m_keysFileKey = 0 then return false
  writeKey P o w.m.m_keysFileKey
  return true

/-- Writes a salt just drawn, and the keys file under the key of a password.
SOURCE: wallet/core/key_manager.cpp:372-381 -/
def writePassword (o : Order) (pass : Bytes) (salt : H256) : Exec Opened Unit := do
  modify fun w => { w with host := { w.host with salt := salt.m_data } }
  let key := fileKey P pass salt.m_data
  modify fun w => { w with m := w.m.cachePassword P pass }
  modify fun w => { w with m := { w.m with m_master := w.m.hashPassword P pass } }
  writeKey P o key

/-- Creates the keys file; a default password is drawn first.
SOURCE: wallet/core/key_manager.cpp:58-62 -/
def create (o : Order) (pass : Bytes) (default salt : H256) : Exec Opened Unit := do
  modify fun w => { w with m := { w.m with m_defaultPasswordDeprecated := default.m_data } }
  writePassword P o pass salt

/-- One account read from the keys file; the second part of the state tells whether the
store has to be saved. An account whose key is not in the store is passed over. What is
assigned to an entry of a table is read before the entry is made.
SOURCE: wallet/core/key_manager.cpp:90-110 -/
def loadInfo (d : Bytes) : Exec (Opened × Bool) Unit := do
  let i : RLP := { m_data := d }
  let (d1, i) ← Exec.ofExcept (i.item 1)
  let uuid : H128 ← Exec.ofExcept (RLP.toHash 16 d1)
  let (d0, i) ← Exec.ofExcept (i.item 0)
  let addr : Address ← Exec.ofExcept (RLP.toHash 20 d0)
  let (w, saveRequired) ← get
  if uuid ≠ 0 ∧ w.m.m_store.contains uuid = false then return ()
  let w := if uuid ≠ 0 then { w with m := w.m.noteLookup uuid addr } else w
  set (w, saveRequired)
  let (d2, i) ← Exec.ofExcept (i.item 2)
  let passHash : H256 ← Exec.ofExcept (RLP.toHash 32 d2)
  let (d3, i) ← Exec.ofExcept (i.item 3)
  let name ← Exec.ofExcept (RLP.toString d3)
  let n ← Exec.ofExcept (RLP.itemCount d)
  let hint ← (if 4 < n then do
      let (d4, _) ← Exec.ofExcept (i.item 4)
      Exec.ofExcept (RLP.toString d4)
    else pure [] : Exec (Opened × Bool) Bytes)
  let w := { w with m :=
    { w.m with m_keyInfo := w.m.m_keyInfo.insert addr ⟨passHash, name, hint⟩ } }
  if uuid ≠ 0 then
    let (noted, store) := w.m.m_store.noteAddress uuid addr
    set ({ w with m := { w.m with m_store := store } }, saveRequired || noted)
  else
    set (w, saveRequired)

/-- One password hint read from the keys file. SOURCE: wallet/core/key_manager.cpp:115-116 -/
def loadHint (d : Bytes) : Exec Opened Unit := do
  let i : RLP := { m_data := d }
  let (d0, i) ← Exec.ofExcept (i.item 0)
  let passHash : H256 ← Exec.ofExcept (RLP.toHash 32 d0)
  let (d1, _) ← Exec.ofExcept (i.item 1)
  let hint ← Exec.ofExcept (RLP.toString d1)
  modify fun w =>
    { w with m := { w.m with m_passwordHint := w.m.m_passwordHint.insert passHash hint } }

/-- The loop over the accounts of the keys file, and the saving it may call for. -/
def loadInfos (d : Bytes) : Exec Opened Unit := do
  let saveRequired ← Exec.withLocal false (RLP.forEach d loadInfo)
  if saveRequired then
    modify fun w => { w with host := w.m.m_store.save w.host }

/-- The accounts and the hints of a keys file of version 1 are noted; the default password
it holds is returned.
SOURCE: wallet/core/key_manager.cpp:89-117 -/
def loadTables (s : RLP) : Exec Opened Bytes := do
  let (d1, s) ← Exec.ofExcept (s.item 1)
  loadInfos d1
  let (d2, s) ← Exec.ofExcept (s.item 2)
  RLP.forEach d2 loadHint
  let (d3, _) ← Exec.ofExcept (s.item 3)
  Exec.ofExcept (RLP.toString d3)

/-- The passwords cached once the keys file has been read.
SOURCE: wallet/core/key_manager.cpp:119-124 -/
def cacheLoaded (key : H128) (pass : Bytes) : Exec Opened Unit := do
  modify fun w => { w with m := w.m.cachePassword P w.m.m_defaultPasswordDeprecated }
  modify fun w => { w with m := w.m.cachePassword P key.m_data }
  modify fun w => { w with m := { w.m with m_master := w.m.hashPassword P pass } }
  modify fun w => { w with m := w.m.cachePassword P pass }

/-- The decrypted keys file is read.
SOURCE: wallet/core/key_manager.cpp:86-125 -/
def loadText (key : H128) (pass bs : Bytes) : Exec Opened Bool := do
  let s ← Exec.ofExcept (RLP.ofBytes bs)
  let (d0, s) ← Exec.ofExcept (s.item 0)
  let version ← Exec.ofExcept (RLP.toInt 4 d0)
  if version = 1 then
    let default ← loadTables s
    modify fun w => { w with m := { w.m with m_defaultPasswordDeprecated := default } }
  cacheLoaded P key pass
  return true

/-- The body of `load`, before exceptions are caught. The key of the file is set before
anything read under it is looked at.
SOURCE: wallet/core/key_manager.cpp:76-126 -/
def loadBody (pass : Bytes) : Exec Opened Bool := do
  let w ← get
  let salt := w.host.salt
  let encKeys := w.host.keys
  if encKeys = [] then return false
  let key := fileKey P pass salt
  modify fun w => { w with m := { w.m with m_keysFileKey := key } }
  loadText P key pass (P.decryptSymNoAuth key 0 encKeys)

/-- Loads the keys file with a password; whatever is thrown means `false`.
SOURCE: wallet/core/key_manager.cpp:76-131 -/
def load (pass : Bytes) : Exec Opened Bool := Exec.catching (loadBody P pass) false

/-! ## Accounts -/

/-- Imports a secret under an identifier just drawn.
SOURCE: wallet/core/key_manager.cpp:194-206 -/
def «import» (o : Order) (s : Secret) (accountName pass passwordHint : Bytes) (uuid : H128)
    (salt : H256) (iv : H128) : Exec Opened H128 := do
  let addr := (P.keyPair s).m_address
  let w ← get
  let passHash := w.m.hashPassword P pass
  modify fun w => { w with m := w.m.cachePassword P pass }
  modify fun w =>
    { w with m := { w.m with m_passwordHint := w.m.m_passwordHint.insert passHash passwordHint } }
  let w ← get
  let (store, host) ← Exec.ofExcept (w.m.m_store.importSecret P s.m_data pass uuid salt iv w.host)
  set { m := { w.m with m_store := store }, host := host : Opened }
  modify fun w =>
    { w with m := { w.m with m_keyInfo := w.m.m_keyInfo.insert addr ⟨passHash, accountName, []⟩ } }
  modify fun w => { w with m := w.m.noteLookup uuid addr }
  let _ ← write P o
  return uuid

/-- Notes an account whose key is in the store already.
SOURCE: wallet/core/key_manager.cpp:242-251 -/
def importExistingAddress (o : Order) (uuid : H128) (accountName : Bytes) (address : Address)
    (passHash : H256) (passwordHint : Bytes) : Exec Opened Unit := do
  modify fun w => { w with m := { w.m with
    m_passwordHint := UnorderedMap.emplace w.m.m_passwordHint passHash passwordHint } }
  modify fun w => { w with m := w.m.noteLookup uuid address }
  modify fun w =>
    let info := (w.m.m_keyInfo.lookup address).getD {}
    let info := { info with passHash := passHash, accountName := accountName }
    { w with m := { w.m with m_keyInfo := w.m.m_keyInfo.insert address info } }
  let _ ← write P o

/-- Notes an account whose key is in the store already, the address taken from the secret
the store gives for the password.
SOURCE: wallet/core/key_manager.cpp:230-240 -/
def importExisting (o : Order) (uuid : H128) (info pass passwordHint : Bytes) :
    Exec Opened Unit := do
  let w ← get
  let (key, store) ← Exec.ofExcept (w.m.m_store.secret P uuid (.ok pass))
  set { w with m := { w.m with m_store := store } }
  if key = [] then return ()
  let a := (P.keyPair (FixedHash.ofBytes key)).m_address
  let passHash := w.m.hashPassword P pass
  modify fun w =>
    if passHash ∈ w.m.m_cachedPasswords then w else { w with m := w.m.cachePassword P pass }
  importExistingAddress P o uuid info a passHash passwordHint

/-- Forgets an address and every decrypted key.
SOURCE: wallet/core/key_manager.cpp:263-271 -/
def clear (o : Order) (a : Address) : Exec Opened Unit := do
  modify fun w =>
    let id := w.m.uuid a
    { w with m := { w.m with
        m_uuidLookup := w.m.m_uuidLookup.erase id
        m_addrLookup := w.m.m_addrLookup.erase a
        m_keyInfo := w.m.m_keyInfo.erase a
        m_store := w.m.m_store.clearCache } }
  let _ ← write P o

/-- Encrypts a text under the stored key of an account.
SOURCE: wallet/core/key_manager.cpp:208-215 -/
def encryptUseEncryptedKey (o : Order) (v : Bytes) (a : Address) :
    Except Exn (Bytes × Option CtrCall) := do
  let pass ← m.getPassword (m.uuid a)
  if pass = [] then .ok ([], none) else m.m_store.encryptUseEncryptedKey P o v a pass

/-- Decrypts a text under the stored key of an account.
SOURCE: wallet/core/key_manager.cpp:217-228 -/
def decryptUseEncryptedKey (o : Order) (v : Bytes) (a : Address) : Except Exn Bytes := do
  let pass ← m.getPassword (m.uuid a)
  if pass = [] then .ok [] else .ok (m.m_store.decryptUseEncryptedKey P o v a pass)

end KeyManager

end TronWallet.Model
