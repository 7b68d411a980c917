import TronWallet.Analysis.KeysFileWrites
import TronWallet.Model.AccountManager

/-!
# Accounts and how the store keeps them

An `Account` is what a `CreateAccount` was given and what it drew.  All the wallet ever
stores about it follows from that record: its address, the key its secret is encrypted
under and the `crypto` object of its key file.  `accountsOf` reads the accounts off the
actions of a run, so that no state has to remember them.

`unlock` is the secret the store gives for an identifier and a password, the cached one
before the decrypted one.
-/

set_option autoImplicit false

namespace TronWallet.Analysis

open TronWallet.Lib TronWallet.Model

variable (P : Platform)

/-- An account: what was asked for and what was drawn when it was created. -/
structure Account where
  secret : Secret
  name : Bytes
  password : Bytes
  uuid : H128
  salt : H256
  iv : H128
deriving DecidableEq

namespace Account

variable (c : Account)

/-- The address of the account. -/
def address : Address := (P.keyPair c.secret).m_address

/-- The key the secret is encrypted under, from the password and the salt. -/
def key : H128 := FixedHash.ofBytesLeft (P.pbkdf2 c.password c.salt.m_data iterations 32)

/-- The `crypto` object of the key file. -/
def crypto : Crypto :=
  let derivedKey := P.pbkdf2 c.password c.salt.m_data iterations 32
  let cipherText := P.encryptSymNoAuth (c.key P) c.iv c.secret.m_data
  { kdf := .pbkdf2 .hmacSha256 iterations c.salt.m_data 32
    cipher := .aes128ctr
    iv := c.iv
    ciphertext := cipherText
    mac := .mac (P.sha3 (cropped derivedKey 16 16 ++ cipherText))
    compat := false }

/-- The encryption of the secret. -/
def ctrCall : CtrCall :=
  { site := .account, key := c.key P, iv := c.iv, plain := c.secret.m_data }

/-- The key as it is stored. -/
def stored : EncryptedKey := { encryptedKey := c.crypto P, address := c.address P }

end Account

/-- The account an action creates, if its search for a key pair ends. -/
def createdBy : Action → Option Account
  | .createAccount _ name password d =>
    match Wallet.makeKey P d.seed d.rounds with
    | .ok k => some ⟨k.m_secret, name, password, d.uuid, d.salt, d.iv⟩
    | .error _ => none
  | _ => none

/-- The accounts created in a run. -/
def accountsOf (as : List Action) : List Account := as.filterMap (createdBy P)

/-- Nothing done, no accounts. -/
@[simp] theorem accountsOf_nil : accountsOf P [] = [] := rfl

/-- The accounts of two parts of a run. -/
@[simp] theorem accountsOf_append (as bs : List Action) :
    accountsOf P (as ++ bs) = accountsOf P as ++ accountsOf P bs := List.filterMap_append ..

/-- The accounts of a single action. -/
theorem accountsOf_singleton (a : Action) : accountsOf P [a] = (createdBy P a).toList := by
  cases h : createdBy P a <;> simp [accountsOf, h]

/-- The passwords given in a run. -/
def passwordsOf (as : List Action) : List Bytes := as.filterMap fun a => match a with
  | .createAccount _ _ password _ => some password
  | .login _ password => some password
  | _ => none

/-- The passwords of two parts of a run. -/
@[simp] theorem passwordsOf_append (as bs : List Action) :
    passwordsOf (as ++ bs) = passwordsOf as ++ passwordsOf bs := List.filterMap_append ..

/-- `MakeKey` returns the key pair of its secret. -/
theorem makeKey_eq {seed : Secret} {rounds : ℕ} {k : KeyPair}
    (h : Wallet.makeKey P seed rounds = .ok k) : k = P.keyPair k.m_secret := by
  have hloop : ∀ (n : ℕ) (k₀ : KeyPair), k₀ = P.keyPair k₀.m_secret →
      Wallet.makeKeyLoop P n k₀ = .ok k → k = P.keyPair k.m_secret := by
    intro n
    induction n with
    | zero =>
        intro k₀ h₀ hk
        unfold Wallet.makeKeyLoop at hk
        split at hk
        · cases hk
          exact h₀
        · cases hk
    | succ n ih =>
        intro k₀ h₀ hk
        unfold Wallet.makeKeyLoop at hk
        split at hk
        · cases hk
          exact h₀
        · exact ih _ (by rw [Platform.keyPair_m_secret]) hk
  exact hloop rounds _ (by rw [Platform.keyPair_m_secret]) h

/-! ## Encrypting and decrypting a secret -/

/-- A secret is never empty. -/
theorem m_data_ne_nil (s : Secret) : s.m_data ≠ [] := by
  intro h
  have := s.size_eq
  rw [h] at this
  cases this

/-- Encrypting the secret of an account gives its `crypto` object. -/
theorem encrypt_eq (c : Account) :
    SecretStore.encrypt P c.secret.m_data c.password c.salt c.iv =
      .ok (c.crypto P, c.ctrCall P) := by
  have hderived : P.pbkdf2 c.password c.salt.m_data iterations 32 ≠ [] := by
    intro h
    have := P.pbkdf2_length c.password c.salt.m_data iterations 32
    rw [h] at this
    cases this
  unfold SecretStore.encrypt
  rw [if_neg hderived]
  simp only [Platform.encryptSymNoAuth_eq_nil, m_data_ne_nil, if_false]
  rfl

/-- The password of an account decrypts its key file. -/
theorem decrypt_own (c : Account) :
    SecretStore.decrypt P (c.crypto P) c.password = c.secret.m_data := by
  simp [SecretStore.decrypt, SecretStore.derivedKey?, SecretStore.macMatches, Account.crypto,
    Account.key]

/-- Writing to a store, and to the files, the account and its secret. -/
def withAccount (c : Account) (s : SecretStore) : SecretStore :=
  { m_cached := s.m_cached.insert c.uuid c.secret.m_data
    m_keys := s.m_keys.insert c.uuid (c.stored P) }

/-- Importing the secret of an account stores its key and saves the file. -/
theorem importSecret_eq (c : Account) (s : SecretStore) (host : Host) :
    s.importSecret P c.secret.m_data c.password c.uuid c.salt c.iv host =
      .ok (withAccount P c s, (withAccount P c s).save (host.noteCtrCall (c.ctrCall P))) := by
  unfold SecretStore.importSecret
  rw [encrypt_eq]
  simp only [bind, Except.bind, FixedHash.ofBytes_m_data]
  rfl

/-! ## The members of the key manager that take an account -/

/-- The state in which `import` writes the keys file. -/
def imported (c : Account) (w : Opened) : Opened :=
  let passHash := w.m.hashPassword P c.password
  let m := w.m.cachePassword P c.password
  let m := { m with m_passwordHint := m.m_passwordHint.insert passHash [] }
  let store := withAccount P c m.m_store
  let m := { m with m_store := store,
                    m_keyInfo := m.m_keyInfo.insert (c.address P) ⟨passHash, c.name, []⟩ }
  { m := m.noteLookup c.uuid (c.address P),
    host := store.save (w.host.noteCtrCall (c.ctrCall P)) }

/-- The same with a hint for the password. -/
def importedWith (c : Account) (passwordHint : Bytes) (w : Opened) : Opened :=
  let s := imported P c w
  { s with m := { s.m with m_passwordHint :=
      w.m.m_passwordHint.insert (w.m.hashPassword P c.password) passwordHint } }

/-- `import` notes the account everywhere, and writes. -/
theorem importWith_ends (o : Order) (c : Account) (passwordHint : Bytes) (w : Opened) :
    Exec.Ends (KeyManager.import P o c.secret c.name c.password passwordHint c.uuid c.salt c.iv) w
      (CanWrite o (importedWith P c passwordHint w).m)
      (afterWrite P o (importedWith P c passwordHint w)) := by
  have hends := (write_ends P o (importedWith P c passwordHint w)).bind_pure fun _ => c.uuid
  have hrun : KeyManager.import P o c.secret c.name c.password passwordHint c.uuid c.salt c.iv w =
      (KeyManager.write P o >>= fun _ => pure c.uuid) (importedWith P c passwordHint w) := by
    simp only [KeyManager.import, Exec.bind_apply, Exec.get_apply, Exec.modify_apply,
      Exec.set_apply, importSecret_eq, Exec.ofExcept_ok]
    rfl
  unfold Exec.Ends at hends ⊢
  rwa [hrun]

/-- How the import of an account ends, and what it leaves. -/
theorem import_ends (o : Order) (c : Account) (w : Opened) :
    Exec.Ends (KeyManager.import P o c.secret c.name c.password [] c.uuid c.salt c.iv) w
      (CanWrite o (imported P c w).m) (afterWrite P o (imported P c w)) :=
  importWith_ends P o c [] w

/-- The state in which `create` writes the keys file. -/
def prepared (pass : Bytes) (default salt : H256) (w : Opened) : Opened :=
  let m := { w.m with m_defaultPasswordDeprecated := default.m_data }
  let m := m.cachePassword P pass
  { m := { m with m_master := m.hashPassword P pass },
    host := { w.host with salt := salt.m_data } }

/-- `create` draws a default password, and writes under a new key. -/
theorem create_ends (o : Order) (pass : Bytes) (default salt : H256) (w : Opened) :
    Exec.Ends (KeyManager.create P o pass default salt) w
      (CanWriteKey o (prepared P pass default salt w).m)
      (afterWriteKey P o (KeyManager.fileKey P pass salt.m_data)
        (prepared P pass default salt w)) :=
  writeKey_ends P o _ (prepared P pass default salt w)

/-- The state in which `importExisting` writes the keys file, for the secret `key`. -/
def notedAgain (uuid : H128) (name pass key : Bytes) (w : Opened) : Opened :=
  let a := (P.keyPair (FixedHash.ofBytes key)).m_address
  let passHash := w.m.hashPassword P pass
  let m := if passHash ∈ w.m.m_cachedPasswords then w.m else w.m.cachePassword P pass
  let m := { m with m_passwordHint := UnorderedMap.emplace m.m_passwordHint passHash [] }
  let m := m.noteLookup uuid a
  let info := (m.m_keyInfo.lookup a).getD {}
  let info := { info with passHash := passHash, accountName := name }
  { w with m := { m with m_keyInfo := m.m_keyInfo.insert a info } }

section NotedAgain

variable (uuid : H128) (name pass key : Bytes) (w : Opened)

/-- Noting a key again touches no file. -/
@[simp] theorem notedAgain_host : (notedAgain P uuid name pass key w).host = w.host := rfl

/-- Noting a key again leaves the key of the keys file. -/
@[simp] theorem notedAgain_m_keysFileKey :
    (notedAgain P uuid name pass key w).m.m_keysFileKey = w.m.m_keysFileKey := by
  unfold notedAgain
  dsimp only
  split <;> rfl

/-- Noting a key again leaves the store. -/
@[simp] theorem notedAgain_m_store :
    (notedAgain P uuid name pass key w).m.m_store = w.m.m_store := by
  unfold notedAgain
  dsimp only
  split <;> rfl

/-- Noting a key again leaves the hash of the master password. -/
@[simp] theorem notedAgain_m_master :
    (notedAgain P uuid name pass key w).m.m_master = w.m.m_master := by
  unfold notedAgain
  dsimp only
  split <;> rfl

/-- Noting a key again leaves the old default password. -/
@[simp] theorem notedAgain_m_defaultPasswordDeprecated :
    (notedAgain P uuid name pass key w).m.m_defaultPasswordDeprecated =
      w.m.m_defaultPasswordDeprecated := by
  unfold notedAgain
  dsimp only
  split <;> rfl

/-- The address of the secret gets the identifier. -/
@[simp] theorem notedAgain_m_addrLookup : (notedAgain P uuid name pass key w).m.m_addrLookup =
    w.m.m_addrLookup.insert (P.keyPair (FixedHash.ofBytes key)).m_address uuid := by
  unfold notedAgain
  dsimp only
  split <;> rfl

/-- Noting a key again enters its address under its identifier. -/
@[simp] theorem notedAgain_m_uuidLookup : (notedAgain P uuid name pass key w).m.m_uuidLookup =
    w.m.m_uuidLookup.insert uuid (P.keyPair (FixedHash.ofBytes key)).m_address := by
  unfold notedAgain
  dsimp only
  split <;> rfl

/-- The hint noted for the address is kept, the hash of its password and its name are
replaced. -/
@[simp] theorem notedAgain_m_keyInfo : (notedAgain P uuid name pass key w).m.m_keyInfo =
    w.m.m_keyInfo.insert (P.keyPair (FixedHash.ofBytes key)).m_address
      { (w.m.m_keyInfo.lookup (P.keyPair (FixedHash.ofBytes key)).m_address).getD {} with
        passHash := w.m.hashPassword P pass, accountName := name } := by
  unfold notedAgain
  dsimp only
  split <;> rfl

end NotedAgain

/-- `importExisting` of a key that is cached notes the account again, and writes. -/
theorem importExisting_ends (o : Order) (uuid : H128) (name pass : Bytes) {key : Bytes}
    (w : Opened) (hcached : w.m.m_store.m_cached.lookup uuid = some key) (hkey : key ≠ []) :
    Exec.Ends (KeyManager.importExisting P o uuid name pass []) w
      (CanWrite o (notedAgain P uuid name pass key w).m)
      (afterWrite P o (notedAgain P uuid name pass key w)) := by
  have hsecret : w.m.m_store.secret P uuid (.ok pass) = .ok (key, w.m.m_store) := by
    unfold SecretStore.secret
    rw [hcached]
  have hends := (write_ends P o (notedAgain P uuid name pass key w)).bind_pure fun _ => ()
  have hif : (if w.m.hashPassword P pass ∈ w.m.m_cachedPasswords then w
      else { w with m := w.m.cachePassword P pass }) =
      { w with m := if w.m.hashPassword P pass ∈ w.m.m_cachedPasswords then w.m
        else w.m.cachePassword P pass } := by
    split <;> rfl
  have hrun : KeyManager.importExisting P o uuid name pass [] w =
      (KeyManager.write P o >>= fun _ => pure ()) (notedAgain P uuid name pass key w) := by
    simp only [KeyManager.importExisting, Exec.bind_apply, Exec.get_apply, hsecret,
      Exec.ofExcept_ok, Exec.set_apply, hkey, if_false, Exec.modify_apply, hif,
      KeyManager.importExistingAddress]
    rfl
  unfold Exec.Ends at hends ⊢
  rwa [hrun]

/-! ## What the store gives for a password -/

/-- The secret the store gives: the cached one, else the decrypted one, else nothing. -/
def unlock (s : SecretStore) (uuid : H128) (pass : Bytes) : Bytes :=
  match s.m_cached.lookup uuid with
  | some k => k
  | none =>
    match s.m_keys.lookup uuid with
    | none => []
    | some k => SecretStore.decrypt P k.encryptedKey pass

/-- The store afterwards: a secret that had to be decrypted is cached now, and its address
is noted. -/
def unlocked (s : SecretStore) (uuid : H128) (pass : Bytes) : SecretStore :=
  if uuid ∈ s.m_cached ∨ unlock P s uuid pass = [] then s
  else
    let s' := { s with m_cached := s.m_cached.insert uuid (unlock P s uuid pass) }
    (s'.noteAddress uuid (P.secretToAddress (FixedHash.ofBytes (unlock P s uuid pass)))).2

/-- Asking for a secret unlocks its key and caches it. -/
theorem secret_eq (s : SecretStore) (uuid : H128) (pass : Bytes) :
    s.secret P uuid (.ok pass) = .ok (unlock P s uuid pass, unlocked P s uuid pass) := by
  unfold SecretStore.secret unlocked unlock
  cases hcached : s.m_cached.lookup uuid with
  | some k =>
      have hmem : uuid ∈ s.m_cached := AList.lookup_isSome.mp (by rw [hcached]; rfl)
      simp [hmem]
  | none =>
      have hmem : uuid ∉ s.m_cached := AList.lookup_eq_none.mp hcached
      cases hkeys : s.m_keys.lookup uuid with
      | none => simp [hmem]
      | some k =>
          simp only [bind, Except.bind, hmem, false_or]
          by_cases hkey : SecretStore.decrypt P k.encryptedKey pass = []
          · rw [if_pos hkey, if_pos hkey, hkey]
          · rw [if_neg hkey, if_neg hkey]

/-- A store that gives nothing is left as it was. -/
theorem unlocked_of_eq_nil {s : SecretStore} {uuid : H128} {pass : Bytes}
    (h : unlock P s uuid pass = []) : unlocked P s uuid pass = s := by
  unfold unlocked
  rw [if_pos (Or.inr h)]

/-- Noting an address does not touch the cache. -/
@[simp] theorem noteAddress_m_cached (s : SecretStore) (uuid : H128) (a : Address) :
    (s.noteAddress uuid a).2.m_cached = s.m_cached := by
  unfold SecretStore.noteAddress
  cases s.m_keys.lookup uuid with
  | none => rfl
  | some k =>
      dsimp only
      split <;> rfl

/-- What was given is cached afterwards. -/
theorem unlocked_m_cached {s : SecretStore} {uuid : H128} {pass : Bytes}
    (h : unlock P s uuid pass ≠ []) :
    (unlocked P s uuid pass).m_cached.lookup uuid = some (unlock P s uuid pass) := by
  unfold unlocked
  by_cases hmem : uuid ∈ s.m_cached
  · rw [if_pos (Or.inl hmem)]
    obtain ⟨k, hk⟩ := Option.isSome_iff_exists.mp (AList.lookup_isSome.mpr hmem)
    unfold unlock
    rw [hk]
  · rw [if_neg (by tauto)]
    simp

end TronWallet.Analysis
