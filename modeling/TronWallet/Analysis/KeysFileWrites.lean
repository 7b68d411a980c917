import TronWallet.Model.KeyManager

/-!
# What the members of the key manager leave behind

Every member that changes the tables ends by writing the keys file.  `afterWrite` is the
state such a write leaves, whether it goes through or throws: no table changes, and the
files change by the keys file alone.  `CanWrite` says when it goes through.

With it each member has one equation: `clear` leaves `afterWrite` of the tables without
the address, `import` of the tables with the new account, `importExisting` of the tables
with the account noted again.
-/

set_option autoImplicit false

namespace TronWallet.Analysis

open TronWallet.Lib TronWallet.Model

variable (P : Platform)

/-! ## Writing the keys file -/

/-- The state after the keys file has been encrypted with a text and before the master
password is asked for. -/
def wrote (key : H128) (text : Bytes) (w : Opened) : Opened :=
  { m := { w.m with m_keysFileKey := key },
    host := { w.host.noteCtrCall { site := .keysFile, key := key, iv := 0, plain := text } with
      keys := P.encryptSymNoAuth key 0 text } }

/-- The state `writeKey` leaves. -/
def afterWriteKey (o : Order) (key : H128) (w : Opened) : Opened :=
  match w.m.fileText o with
  | .error _ => w
  | .ok text =>
    match w.m.m_cachedPasswords.lookup w.m.m_master with
    | none => wrote P key text w
    | some p => { wrote P key text w with m := (wrote P key text w).m.cachePassword P p }

/-- When writing the keys file under a key goes through: its text can be made, and the
master password is cached. -/
def CanWriteKey (o : Order) (m : KeyManager) : Prop :=
  (∃ text, m.fileText o = .ok text) ∧ ∃ p, m.m_cachedPasswords.lookup m.m_master = some p

/-- The state `write` leaves. -/
def afterWrite (o : Order) (w : Opened) : Opened :=
  if w.m.m_keysFileKey = 0 then w else afterWriteKey P o w.m.m_keysFileKey w

/-- When `write` goes through: there is no key, or writing under it goes through. -/
def CanWrite (o : Order) (m : KeyManager) : Prop := m.m_keysFileKey = 0 ∨ CanWriteKey o m

instance (o : Order) (m : KeyManager) : Decidable (CanWriteKey o m) :=
  decidable_of_iff ((m.fileText o).toOption.isSome ∧
      (m.m_cachedPasswords.lookup m.m_master).isSome) <| by
    unfold CanWriteKey
    rw [Option.isSome_iff_exists, Option.isSome_iff_exists]
    cases m.fileText o <;> simp [Except.toOption]

instance (o : Order) (m : KeyManager) : Decidable (CanWrite o m) := by
  unfold CanWrite
  infer_instance

/-- Writing under a key: the state it leaves, and when it goes through. -/
theorem writeKey_ends (o : Order) (key : H128) (w : Opened) :
    Exec.Ends (KeyManager.writeKey P o key) w (CanWriteKey o w.m) (afterWriteKey P o key w) := by
  unfold KeyManager.writeKey afterWriteKey CanWriteKey
  cases htext : w.m.fileText o with
  | error e =>
      refine Or.inr ⟨?_, e, ?_⟩
      · rintro ⟨⟨text, h⟩, -⟩
        cases h
      · simp [Exec.bind_apply, htext]
  | ok text =>
      cases hp : w.m.m_cachedPasswords.lookup w.m.m_master with
      | none =>
          refine Or.inr ⟨?_, .passwordUnknown, ?_⟩
          · rintro ⟨-, p, h⟩
            cases h
          · simp [Exec.bind_apply, htext, KeyManager.defaultPassword, KeyManager.passwordOfHash, hp,
              wrote]
      | some p =>
          refine Or.inl ⟨⟨⟨text, rfl⟩, p, rfl⟩, (), ?_⟩
          simp [Exec.bind_apply, htext, KeyManager.defaultPassword, KeyManager.passwordOfHash, hp,
            wrote]

/-- Writing under the key in use: the state it leaves, and when it goes through. -/
theorem write_ends (o : Order) (w : Opened) :
    Exec.Ends (KeyManager.write P o) w (CanWrite o w.m) (afterWrite P o w) := by
  unfold KeyManager.write afterWrite CanWrite
  by_cases hkey : w.m.m_keysFileKey = 0
  · exact Or.inl ⟨Or.inl hkey, false, by simp [Exec.bind_apply, hkey]⟩
  · rw [if_neg hkey]
    rcases writeKey_ends P o w.m.m_keysFileKey w with ⟨hcan, u, h⟩ | ⟨hcan, e, h⟩
    · exact Or.inl ⟨Or.inr hcan, true, by simp [Exec.bind_apply, Exec.map_apply, hkey, h]⟩
    · refine Or.inr ⟨?_, e, by simp [Exec.bind_apply, Exec.map_apply, hkey, h]⟩
      rintro (h | h)
      · exact hkey h
      · exact hcan h

/-! ## What writing leaves unchanged -/

/-- Two key managers with the same tables; the key of the keys file and the passwords
cached may differ. -/
structure SameTables (m m' : KeyManager) : Prop where
  uuidLookup : m'.m_uuidLookup = m.m_uuidLookup
  addrLookup : m'.m_addrLookup = m.m_addrLookup
  keyInfo : m'.m_keyInfo = m.m_keyInfo
  passwordHint : m'.m_passwordHint = m.m_passwordHint
  default : m'.m_defaultPasswordDeprecated = m.m_defaultPasswordDeprecated
  master : m'.m_master = m.m_master
  store : m'.m_store = m.m_store

/-- A key manager has the tables that it has. -/
theorem SameTables.refl (m : KeyManager) : SameTables m m := ⟨rfl, rfl, rfl, rfl, rfl, rfl, rfl⟩

/-- Writing the keys file under a key leaves the tables. -/
theorem sameTables_afterWriteKey (o : Order) (key : H128) (w : Opened) :
    SameTables w.m (afterWriteKey P o key w).m := by
  unfold afterWriteKey
  cases w.m.fileText o with
  | error e => exact .refl _
  | ok text =>
      cases w.m.m_cachedPasswords.lookup w.m.m_master with
      | none => exact ⟨rfl, rfl, rfl, rfl, rfl, rfl, rfl⟩
      | some p => exact ⟨rfl, rfl, rfl, rfl, rfl, rfl, rfl⟩

/-- Writing the keys file leaves the tables. -/
theorem sameTables_afterWrite (o : Order) (w : Opened) :
    SameTables w.m (afterWrite P o w).m := by
  unfold afterWrite
  split
  · exact .refl _
  · exact sameTables_afterWriteKey P o _ w

/-- The files after a write: the keys file, and the record of the encryption, are what may
have changed. -/
inductive WroteFile (key : H128) (text : Except Exn Bytes) (h h' : Host) : Prop where
  | unchanged (e : Exn) (htext : text = .error e) (hsame : h' = h)
  | written (t : Bytes) (htext : text = .ok t)
      (hnew : h' = { h.noteCtrCall { site := .keysFile, key := key, iv := 0, plain := t } with
        keys := P.encryptSymNoAuth key 0 t })

/-- A write under a key leaves the file with its text, or the files as they were. -/
theorem afterWriteKey_host (o : Order) (key : H128) (w : Opened) :
    WroteFile P key (w.m.fileText o) w.host (afterWriteKey P o key w).host := by
  unfold afterWriteKey
  cases htext : w.m.fileText o with
  | error e => exact .unchanged e rfl rfl
  | ok text =>
      refine .written text rfl ?_
      cases w.m.m_cachedPasswords.lookup w.m.m_master <;> rfl

/-- The key in use after a write under a key is that key, or the one before when nothing
could be written. -/
theorem afterWriteKey_keysFileKey (o : Order) (key : H128) (w : Opened) :
    (afterWriteKey P o key w).m.m_keysFileKey = key ∨
      (afterWriteKey P o key w).m.m_keysFileKey = w.m.m_keysFileKey := by
  unfold afterWriteKey
  cases htext : w.m.fileText o with
  | error e => exact Or.inr rfl
  | ok text => cases w.m.m_cachedPasswords.lookup w.m.m_master <;> exact Or.inl rfl

/-- Writing the keys file leaves its key. -/
@[simp] theorem afterWrite_keysFileKey (o : Order) (w : Opened) :
    (afterWrite P o w).m.m_keysFileKey = w.m.m_keysFileKey := by
  unfold afterWrite
  split
  · rfl
  · exact (afterWriteKey_keysFileKey P o _ w).elim id id

section Host

variable (o : Order) (key : H128) (w : Opened)

/-- Writing under a key leaves the key files. -/
@[simp] theorem afterWriteKey_accountDir :
    (afterWriteKey P o key w).host.accountDir = w.host.accountDir := by
  rcases afterWriteKey_host P o key w with ⟨_, -, h⟩ | ⟨_, -, h⟩ <;> rw [h]
  rfl

/-- Writing under a key leaves the salt. -/
@[simp] theorem afterWriteKey_salt : (afterWriteKey P o key w).host.salt = w.host.salt := by
  rcases afterWriteKey_host P o key w with ⟨_, -, h⟩ | ⟨_, -, h⟩ <;> rw [h]
  rfl

/-- Writing under a key leaves the cold files. -/
@[simp] theorem afterWriteKey_coldWallet :
    (afterWriteKey P o key w).host.coldWallet = w.host.coldWallet := by
  rcases afterWriteKey_host P o key w with ⟨_, -, h⟩ | ⟨_, -, h⟩ <;> rw [h]
  rfl

/-- Writing the keys file records no encryption of another kind. -/
theorem mem_ctrCalls_afterWriteKey {c : CtrCall} (hc : c.site ≠ .keysFile) :
    c ∈ (afterWriteKey P o key w).host.ctrCalls ↔ c ∈ w.host.ctrCalls := by
  rcases afterWriteKey_host P o key w with ⟨_, -, h⟩ | ⟨t, -, h⟩ <;> rw [h]
  simp only [Host.noteCtrCall, List.mem_cons]
  refine ⟨fun hmem => hmem.resolve_left ?_, Or.inr⟩
  rintro rfl
  exact hc rfl

/-- Writing the keys file leaves the key files. -/
@[simp] theorem afterWrite_accountDir :
    (afterWrite P o w).host.accountDir = w.host.accountDir := by
  unfold afterWrite
  split <;> simp

/-- Writing the keys file leaves the salt. -/
@[simp] theorem afterWrite_salt : (afterWrite P o w).host.salt = w.host.salt := by
  unfold afterWrite
  split <;> simp

/-- Writing the keys file leaves the cold files. -/
@[simp] theorem afterWrite_coldWallet :
    (afterWrite P o w).host.coldWallet = w.host.coldWallet := by
  unfold afterWrite
  split <;> simp

/-- The write adds no encryption but the one of the keys file. -/
theorem mem_ctrCalls_afterWrite {c : CtrCall} (hc : c.site ≠ .keysFile) :
    c ∈ (afterWrite P o w).host.ctrCalls ↔ c ∈ w.host.ctrCalls := by
  unfold afterWrite
  split
  · rfl
  · exact mem_ctrCalls_afterWriteKey P o _ w hc

end Host

/-! ## The members that end by writing -/

/-- The tables without an address, and the store without its cache. -/
def cleared (a : Address) (w : Opened) : Opened :=
  { w with m := { w.m with
      m_uuidLookup := w.m.m_uuidLookup.erase (w.m.uuid a)
      m_addrLookup := w.m.m_addrLookup.erase a
      m_keyInfo := w.m.m_keyInfo.erase a
      m_store := w.m.m_store.clearCache } }

/-- `clear` forgets the address and the cache, and writes. -/
theorem clear_ends (o : Order) (a : Address) (w : Opened) :
    Exec.Ends (KeyManager.clear P o a) w (CanWrite o (cleared a w).m)
      (afterWrite P o (cleared a w)) :=
  (write_ends P o (cleared a w)).bind_pure fun _ => ()

end TronWallet.Analysis
