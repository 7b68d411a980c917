import TronWallet.Model.Value

/-!
# What the wallet takes from outside the repository

The key derivation functions, AES, the hash functions, secp256k1 and the JSON library are
parameters of the model.  Everything the repository itself adds around them is defined
here as it stands in `libdevcrypto/Common.cpp`: the key-size test of the counter mode, the
length of a derived key, the address of a key pair with its case for invalid secrets.

Two parameters are given in the form that carries what their documentation promises.  A
derived key is a stream of which the caller takes the number of bytes it asks for.  The
counter mode is a key stream added to the text, so that decryption inverts encryption
under the same key and initialisation vector without an assumption.
-/

set_option autoImplicit false

namespace TronWallet.Model

/-- The external functions. -/
structure Platform where
  /-- `PKCS5_PBKDF2_HMAC<SHA256>`: password, salt, iterations, byte index. -/
  pbkdf2Stream : Bytes → Bytes → ℕ → ℕ → UInt8
  /-- `libscrypt_scrypt`: password, salt, `n`, `r`, `p`, byte index. -/
  scryptStream : Bytes → Bytes → ℕ → ℕ → ℕ → ℕ → UInt8
  /-- The AES counter-mode key stream: key, initial counter, byte index. -/
  ctrStream : Bytes → H128 → ℕ → UInt8
  /-- Keccak-256. -/
  sha3 : Bytes → H256
  /-- SHA-256. -/
  sha256 : Bytes → H256
  /-- `secp256k1_ec_pubkey_create` with the serialisation, `none` for an invalid secret. -/
  ecPubkeyCreate : Secret → Option H512
  /-- `secp256k1_ecdsa_sign_recoverable` with the low-`s` form, `none` for an invalid
  secret. -/
  ecdsaSign : Secret → H256 → Option H520
  /-- `JSONStringValueSerializer::Serialize`. -/
  jsonWrite : Value → Bytes
  /-- `JSONStringValueDeserializer::Deserialize`, `none` where it returns null. -/
  jsonRead : Bytes → Option Value

namespace Platform

variable (P : Platform)

/-- Derive a key via PBKDF2.
SOURCE: libdevcrypto/Common.cpp:261-276 -/
def pbkdf2 (pass salt : Bytes) (iterations dkLen : ℕ) : Bytes :=
  (List.range dkLen).map (P.pbkdf2Stream pass salt iterations)

/-- Derive a key via scrypt.
SOURCE: libdevcrypto/Common.cpp:278-294 -/
def scrypt (pass salt : Bytes) (n r p dkLen : ℕ) : Bytes :=
  (List.range dkLen).map (P.scryptStream pass salt n r p)

/-- PBKDF2 gives as many bytes as asked for. -/
@[simp] theorem pbkdf2_length (pass salt : Bytes) (iterations dkLen : ℕ) :
    (P.pbkdf2 pass salt iterations dkLen).length = dkLen := by
  rw [pbkdf2, List.length_map, List.length_range]

/-- Scrypt gives as many bytes as asked for. -/
@[simp] theorem scrypt_length (pass salt : Bytes) (n r p dkLen : ℕ) :
    (P.scrypt pass salt n r p dkLen).length = dkLen := by
  rw [scrypt, List.length_map, List.length_range]

/-- The counter mode: the text with the key stream added byte by byte. -/
def ctrMode (key : Bytes) (iv : H128) (text : Bytes) : Bytes :=
  text.zipIdx.map fun p => p.1 ^^^ P.ctrStream key iv p.2

/-- Encrypts a payload with the given IV using AES128-CTR.
SOURCE: libdevcrypto/Common.cpp:161-179 -/
def encryptAES128CTR (key : Bytes) (iv : H128) (plain : Bytes) : Bytes :=
  if key.length ≠ 16 ∧ key.length ≠ 24 ∧ key.length ≠ 32 then []
  else P.ctrMode key iv plain

/-- Decrypts a payload with the given IV using AES128-CTR.
SOURCE: libdevcrypto/Common.cpp:181-199 -/
def decryptAES128CTR (key : Bytes) (iv : H128) (cipher : Bytes) : Bytes :=
  if key.length ≠ 16 ∧ key.length ≠ 24 ∧ key.length ≠ 32 then []
  else P.ctrMode key iv cipher

/-- SOURCE: libdevcrypto/Common.h:126 -/
def encryptSymNoAuth (key iv : H128) (plain : Bytes) : Bytes :=
  P.encryptAES128CTR key.m_data iv plain

/-- SOURCE: libdevcrypto/Common.h:130 -/
def decryptSymNoAuth (key iv : H128) (cipher : Bytes) : Bytes :=
  P.decryptAES128CTR key.m_data iv cipher

/-- The public key of a secret, zero when creation fails.
SOURCE: libdevcrypto/Common.cpp:65-83 -/
def toPublic (secret : Secret) : H512 := (P.ecPubkeyCreate secret).getD 0

/-- SOURCE: libdevcrypto/Common.cpp:85-88 -/
def toAddress (pub : H512) : Address := right160 (P.sha3 pub.m_data)

/-- The address of a secret, without a test of the secret.
SOURCE: libdevcrypto/Common.cpp:90-93 -/
def secretToAddress (secret : Secret) : Address := P.toAddress (P.toPublic secret)

/-- Returns the signature of a message hash, all zero when signing fails.
SOURCE: libdevcrypto/Common.cpp:231-251 -/
def sign (key : Secret) (hash : H256) : H520 := (P.ecdsaSign key hash).getD 0

/-- The encryption and the decryption of the counter mode are one function, and using it
twice gives the text back. -/
theorem ctrMode_ctrMode (key : Bytes) (iv : H128) (text : Bytes) :
    P.ctrMode key iv (P.ctrMode key iv text) = text := by
  unfold ctrMode
  apply List.ext_getElem
  · simp only [List.length_map, List.length_zipIdx]
  · intro i h₁ h₂
    simp only [List.getElem_map, List.getElem_zipIdx]
    rw [UInt8.xor_assoc, UInt8.xor_self, UInt8.xor_zero]

/-- Counter mode keeps the length. -/
@[simp] theorem ctrMode_length (key : Bytes) (iv : H128) (text : Bytes) :
    (P.ctrMode key iv text).length = text.length := by
  rw [ctrMode, List.length_map, List.length_zipIdx]

/-- Encryption is counter mode. -/
theorem encryptSymNoAuth_eq (key iv : H128) (plain : Bytes) :
    P.encryptSymNoAuth key iv plain = P.ctrMode key.m_data iv plain := by
  unfold encryptSymNoAuth encryptAES128CTR
  rw [if_neg]
  rintro ⟨h, -, -⟩
  exact h key.size_eq

/-- Decryption is counter mode as well. -/
theorem decryptSymNoAuth_eq (key iv : H128) (cipher : Bytes) :
    P.decryptSymNoAuth key iv cipher = P.ctrMode key.m_data iv cipher := by
  unfold decryptSymNoAuth decryptAES128CTR
  rw [if_neg]
  rintro ⟨h, -, -⟩
  exact h key.size_eq

/-- Decryption inverts encryption under the same key and IV. -/
@[simp] theorem decryptSymNoAuth_encryptSymNoAuth (key iv : H128) (plain : Bytes) :
    P.decryptSymNoAuth key iv (P.encryptSymNoAuth key iv plain) = plain := by
  rw [decryptSymNoAuth_eq, encryptSymNoAuth_eq, ctrMode_ctrMode]

/-- A ciphertext is as long as its text. -/
@[simp] theorem encryptSymNoAuth_length (key iv : H128) (plain : Bytes) :
    (P.encryptSymNoAuth key iv plain).length = plain.length := by
  rw [encryptSymNoAuth_eq, ctrMode_length]

/-- Only the empty text has an empty ciphertext. -/
@[simp] theorem encryptSymNoAuth_eq_nil {key iv : H128} {plain : Bytes} :
    P.encryptSymNoAuth key iv plain = [] ↔ plain = [] := by
  rw [← List.length_eq_zero_iff, ← List.length_eq_zero_iff, encryptSymNoAuth_length]

end Platform

/-! ## Key pairs -/

/-- A key pair. The public key and the address stay zero when the secret is invalid.
SOURCE: libdevcrypto/Common.h:164-200 -/
structure KeyPair where
  m_secret : Secret
  m_public : H512
  m_address : Address
deriving DecidableEq

/-- SOURCE: libdevcrypto/Common.cpp:296-303 -/
def Platform.keyPair (P : Platform) (sec : Secret) : KeyPair :=
  let pub := P.toPublic sec
  { m_secret := sec, m_public := pub, m_address := if pub ≠ 0 then P.toAddress pub else 0 }

/-- A key pair keeps the secret it is made of. -/
@[simp] theorem Platform.keyPair_m_secret (P : Platform) (sec : Secret) :
    (P.keyPair sec).m_secret = sec := rfl

end TronWallet.Model
