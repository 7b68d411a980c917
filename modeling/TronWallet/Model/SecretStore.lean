import TronWallet.Lib.UnorderedMap
import TronWallet.Model.Exec
import TronWallet.Model.Platform

/-!
# Encrypted key files and the secret store

`SecretStore` of libdevcrypto: the encrypted keys it has read, the decrypted ones it
caches, and the directory of key files behind them.  The text of a key file is JSON; here
it is the record of the fields that JSON holds, `Crypto`, so that writing a file and
reading it back is the identity.

`Host` is everything outside the process that the wallet writes: the key files, the keys
file with its salt, the cold address files.  It also keeps `ctrCalls`, a record of each
text the wallet has encrypted and under which key and initialisation vector.  No code
reads that record; statements about encryption do.
-/

set_option autoImplicit false

namespace TronWallet.Model

open TronWallet.Lib

/-! ## The world outside the process -/

/-- The pseudo-random functions a key file may name. -/
inductive Prf where
  | hmacSha256
  | other
deriving DecidableEq

/-- The ciphers a key file may name. -/
inductive Cipher where
  | aes128ctr
  | other
deriving DecidableEq

/-- The key derivation a key file names, with its parameters. -/
inductive KdfParams where
  | pbkdf2 (prf : Prf) (c : ℕ) (salt : Bytes) (dklen : ℕ)
  | scrypt (n r p : ℕ) (salt : Bytes) (dklen : ℕ)
  | other
deriving DecidableEq

/-- The authentication code of a key file. -/
inductive Mac where
  | mac (m : H256)
  | sillymac (m : H256) (sillymacjson : Bytes)
  | none
deriving DecidableEq

/-- The `crypto` object of a key file. -/
structure Crypto where
  kdf : KdfParams
  cipher : Cipher
  iv : H128
  ciphertext : Bytes
  mac : Mac
  /-- Whether `compat` is `"2"`. -/
  compat : Bool
deriving DecidableEq

/-- A key as it is stored, in memory and in its file.
SOURCE: libdevcrypto/SecretStore.h:51-56 -/
structure EncryptedKey where
  encryptedKey : Crypto
  address : Address
deriving DecidableEq

/-- The places of the source that encrypt. -/
inductive CtrSite where
  /-- `SecretStore::encrypt`. -/
  | account
  /-- `SecretStore::encryptUseEncryptedKey`. -/
  | coldFile
  /-- `KeyManager::write`. -/
  | keysFile
deriving DecidableEq

/-- One encryption: where, under which key and initialisation vector, of which text. -/
structure CtrCall where
  site : CtrSite
  key : H128
  iv : H128
  plain : Bytes
deriving DecidableEq

/-- What the wallet has written outside the process. A file that is not there reads as the
empty string. -/
structure Host where
  /-- The key files, by identifier. -/
  accountDir : UnorderedMap H128 EncryptedKey := ∅
  /-- The salt file of the keys file. -/
  salt : Bytes := []
  /-- The keys file. -/
  keys : Bytes := []
  /-- The cold address files, by name. -/
  coldWallet : UnorderedMap Bytes Bytes := ∅
  /-- The encryptions made so far, the latest first. -/
  ctrCalls : List CtrCall := []

/-- Recording an encryption. -/
def Host.noteCtrCall (h : Host) (c : CtrCall) : Host := { h with ctrCalls := c :: h.ctrCalls }

/-! ## Encryption of one key -/

/-- The iterations of `deriveNewKey`. -/
def iterations : ℕ := 262144

/-- Encrypts a value under a password with a salt and an initialisation vector just drawn,
`_kdf` being PBKDF2. Returned are the object and the encryption that was made.
SOURCE: libdevcrypto/SecretStore.cpp:405-469 -/
def SecretStore.encrypt (P : Platform) (v pass : Bytes) (salt : H256) (iv : H128) :
    Except Exn (Crypto × CtrCall) :=
  let derivedKey := P.pbkdf2 pass salt.m_data iterations 32
  if derivedKey = [] then .error .cryptoException
  else
    let key : H128 := FixedHash.ofBytesLeft derivedKey
    let cipherText := P.encryptSymNoAuth key iv v
    if cipherText = [] then .error .cryptoException
    else .ok
      ({ kdf := .pbkdf2 .hmacSha256 iterations salt.m_data 32
         cipher := .aes128ctr
         iv := iv
         ciphertext := cipherText
         mac := .mac (P.sha3 (cropped derivedKey 16 16 ++ cipherText))
         compat := false },
       { site := .account, key := key, iv := iv, plain := v })

/-- The derived key of a key file for decryption, `none` where the source gives up.
SOURCE: libdevcrypto/SecretStore.cpp:480-508 -/
def SecretStore.derivedKey? (P : Platform) (o : Crypto) (pass : Bytes) : Option Bytes :=
  let derivedKey : Option Bytes := match o.kdf with
    | .pbkdf2 .hmacSha256 c salt dklen => some (P.pbkdf2 pass salt c dklen)
    | .pbkdf2 .other _ _ _ => none
    | .scrypt n r p salt dklen => some (P.scrypt pass salt n r p dklen)
    | .other => none
  match derivedKey with
  | none => none
  | some derivedKey =>
    if derivedKey.length < 32 ∧ o.compat = false then none else some derivedKey

/-- `cropped(size() - 16)`: the last 16 bytes, the empty reference when there are fewer. -/
def last16 (b : Bytes) : Bytes := if b.length < 16 then [] else b.drop (b.length - 16)

/-- Whether the authentication code is the one the derived key gives.
SOURCE: libdevcrypto/SecretStore.cpp:512-538 -/
def SecretStore.macMatches (P : Platform) (o : Crypto) (derivedKey : Bytes) : Bool :=
  match o.mac with
  | .mac m =>
    if o.compat then
      m = P.sha3 (last16 derivedKey ++ o.ciphertext)
    else m = P.sha3 (cropped derivedKey 16 16 ++ o.ciphertext)
  | .sillymac m json =>
    m = P.sha3 (json ++ last16 derivedKey ++ o.ciphertext)
  | .none => true

/-- Decrypts a key, the empty string when that fails.
SOURCE: libdevcrypto/SecretStore.cpp:471-557 -/
def SecretStore.decrypt (P : Platform) (o : Crypto) (pass : Bytes) : Bytes :=
  match SecretStore.derivedKey? P o pass with
  | none => []
  | some derivedKey =>
    if SecretStore.macMatches P o derivedKey = false then []
    else match o.cipher with
      | .aes128ctr =>
        if o.compat then
          P.decryptSymNoAuth (FixedHash.ofBytesRight (P.sha3 (last16 derivedKey)).m_data) o.iv
            o.ciphertext
        else P.decryptSymNoAuth (FixedHash.ofBytesLeft derivedKey) o.iv o.ciphertext
      | .other => []

/-! ## The store -/

/-- The keys read from the directory and the decrypted keys held in the cache.
SOURCE: libdevcrypto/SecretStore.h:139-145 -/
structure SecretStore where
  m_cached : UnorderedMap H128 Bytes := ∅
  m_keys : UnorderedMap H128 EncryptedKey := ∅

namespace SecretStore

variable (P : Platform) (s : SecretStore)

/-- Reads the directory. SOURCE: libdevcrypto/SecretStore.cpp:317-359 -/
def load (host : Host) : SecretStore := { m_keys := host.accountDir }

/-- The identifiers of all keys, in the order of the table. SOURCE: libdevcrypto/SecretStore.h:98 -/
def keys (o : Order) : List H128 := (o.iterate s.m_keys).map Prod.fst

/-- SOURCE: libdevcrypto/SecretStore.h:101 -/
def contains (uuid : H128) : Bool := uuid ∈ s.m_keys

/-- The address stored for a key, which is there. SOURCE: libdevcrypto/SecretStore.h:124 -/
def address (uuid : H128) : Except Exn Address :=
  match s.m_keys.lookup uuid with
  | some k => .ok k.address
  | none => .error .outOfRange

/-- Notes the address of a key that is stored without one, and tells whether it did.
SOURCE: libdevcrypto/SecretStore.cpp:306-315 -/
def noteAddress (uuid : H128) (address : Address) : Bool × SecretStore :=
  match s.m_keys.lookup uuid with
  | some k =>
    if k.address = ZeroAddress then
      (true, { s with m_keys := s.m_keys.insert uuid { k with address := address } })
    else (false, s)
  | none => (false, s)

/-- The secret of a key: the cached one, whatever the password; else the decrypted one,
which is cached then. The password is asked for only when it is needed, and asking for it
may throw.
SOURCE: libdevcrypto/SecretStore.cpp:105-123 -/
def secret (uuid : H128) (pass : Except Exn Bytes) : Except Exn (Bytes × SecretStore) :=
  match s.m_cached.lookup uuid with
  | some k => .ok (k, s)
  | none =>
    match s.m_keys.lookup uuid with
    | none => .ok ([], s)
    | some k => do
      let pass ← pass
      let key := decrypt P k.encryptedKey pass
      if key = [] then .ok ([], s)
      else
        let s := { s with m_cached := s.m_cached.insert uuid key }
        .ok (key, (s.noteAddress uuid (P.secretToAddress (FixedHash.ofBytes key))).2)

/-- Writes every key to its file. SOURCE: libdevcrypto/SecretStore.cpp:284-304 -/
def save (host : Host) : Host :=
  { host with accountDir := UnorderedMap.insertAll host.accountDir s.m_keys.pairs }

/-- Imports a secret under an identifier just drawn: it is encrypted, cached and stored,
and all keys are saved.
SOURCE: libdevcrypto/SecretStore.cpp:148-156 -/
def importSecret (v pass : Bytes) (uuid : H128) (salt : H256) (iv : H128) (host : Host) :
    Except Exn (SecretStore × Host) := do
  let (crypto, call) ← encrypt P v pass salt iv
  let key := { encryptedKey := crypto, address := (P.keyPair (FixedHash.ofBytes v)).m_address }
  let s := { m_cached := s.m_cached.insert uuid v, m_keys := s.m_keys.insert uuid key }
  .ok (s, s.save (host.noteCtrCall call))

/-- SOURCE: libdevcrypto/SecretStore.cpp:279-282 -/
def clearCache : SecretStore := { s with m_cached := ∅ }

/-- The first key, in the order of the table, that is stored with a given address.
SOURCE: libdevcrypto/SecretStore.cpp:378-392 -/
def key (o : Order) (address : Address) : Option EncryptedKey :=
  ((o.iterate s.m_keys).map Prod.snd).find? fun k => k.address = address

/-- The derived key for a text that is to be encrypted under the parameters of a key
file: an unknown function only draws a warning.
SOURCE: libdevcrypto/SecretStore.cpp:190-211, 242-263 -/
def reusedKey (o : Crypto) (pass : Bytes) : Bytes :=
  match o.kdf with
  | .pbkdf2 _ c salt dklen => P.pbkdf2 pass salt c dklen
  | .scrypt n r p salt dklen => P.scrypt pass salt n r p dklen
  | .other => []

/-- Encrypts a text under the key, the salt and the initialisation vector of a stored
key. Returned are the cipher text and the encryption that was made, if one was.
SOURCE: libdevcrypto/SecretStore.cpp:178-228 -/
def encryptUseEncryptedKey (o : Order) (v : Bytes) (address : Address) (pass : Bytes) :
    Except Exn (Bytes × Option CtrCall) :=
  match s.key o address with
  | none => .ok ([], none)
  | some k =>
    let derivedKey := reusedKey P k.encryptedKey pass
    if derivedKey = [] then .ok ([], none)
    else match k.encryptedKey.cipher with
      | .other => .ok ([], none)
      | .aes128ctr =>
        let iv := k.encryptedKey.iv
        let key : H128 := FixedHash.ofBytesLeft derivedKey
        let cipherText := P.encryptSymNoAuth key iv v
        if cipherText = [] then .error .cryptoException
        else .ok (cipherText, some { site := .coldFile, key := key, iv := iv, plain := v })

/-- Decrypts a text under the key, the salt and the initialisation vector of a stored key.
SOURCE: libdevcrypto/SecretStore.cpp:230-277 -/
def decryptUseEncryptedKey (o : Order) (v : Bytes) (address : Address) (pass : Bytes) : Bytes :=
  match s.key o address with
  | none => []
  | some k =>
    let derivedKey := reusedKey P k.encryptedKey pass
    if derivedKey = [] then []
    else match k.encryptedKey.cipher with
      | .other => []
      | .aes128ctr =>
        P.decryptSymNoAuth (FixedHash.ofBytesLeft derivedKey) k.encryptedKey.iv v

end SecretStore

end TronWallet.Model
