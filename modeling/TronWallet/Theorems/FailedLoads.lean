import TronWallet.Analysis.KeysFileReading
import TronWallet.Reference.Platform

/-!
# Loads that fail

A call of `load` that returns `false` has set the key of the keys file and noted every
account and hint it read before it threw; the passwords are set at the end only.
`failureChangesNothing_iff` says when such a call leaves all tables as they were: there is
no keys file, the text is read to its end after all, or the key of the password is the one
held and what is noted repeats what the tables hold.
-/

set_option autoImplicit false

namespace TronWallet.Theorems

open TronWallet.Lib TronWallet.Model TronWallet.Analysis TronWallet.Reference

variable (P : Platform)

/-! ## What may change -/

/-- Two key managers with the same keys, passwords, tables and addresses. -/
structure Unchanged (m m' : KeyManager) : Prop where
  keysFileKey : m'.m_keysFileKey = m.m_keysFileKey
  master : m'.m_master = m.m_master
  uuidLookup : ∀ u, m'.m_uuidLookup.lookup u = m.m_uuidLookup.lookup u
  addrLookup : ∀ a, m'.m_addrLookup.lookup a = m.m_addrLookup.lookup a
  keyInfo : ∀ a, m'.m_keyInfo.lookup a = m.m_keyInfo.lookup a
  passwordHint : ∀ h, m'.m_passwordHint.lookup h = m.m_passwordHint.lookup h
  default : m'.m_defaultPasswordDeprecated = m.m_defaultPasswordDeprecated
  cachedPasswords : ∀ h, m'.m_cachedPasswords.lookup h = m.m_cachedPasswords.lookup h
  addresses : ∀ u, storedAddress m' u = storedAddress m u

/-- **A load that fails changes nothing.** -/
def FailureChangesNothing (pass : Bytes) (w : Opened) : Prop :=
  Exec.result? (KeyManager.load P pass) w = some false →
    Unchanged w.m (Exec.finalState (KeyManager.load P pass) w).m

/-! ## What is noted, table by table -/

/-- The entry for the table of identifiers. -/
def identifierNoted : Noting → Option (Address × H128)
  | .lookup uuid addr => some (addr, uuid)
  | _ => none

/-- The entry for the table of addresses. -/
def addressNoted : Noting → Option (H128 × Address)
  | .lookup uuid addr => some (uuid, addr)
  | _ => none

/-- The entry for the table of key information. -/
def infoNoted : Noting → Option (Address × KeyInfo)
  | .info addr ki => some (addr, ki)
  | _ => none

/-- The entry for the table of password hints. -/
def hintNoted : Noting → Option (H256 × Bytes)
  | .hint passHash text => some (passHash, text)
  | _ => none

/-- What is noted repeats what the tables hold, and no address is given to a key that is
stored without one. -/
structure RepeatsTables (m : KeyManager) (steps : List Noting) : Prop where
  addrLookup : m.m_addrLookup.Repeats (steps.filterMap identifierNoted)
  uuidLookup : m.m_uuidLookup.Repeats (steps.filterMap addressNoted)
  keyInfo : m.m_keyInfo.Repeats (steps.filterMap infoNoted)
  passwordHint : m.m_passwordHint.Repeats (steps.filterMap hintNoted)
  addresses : ∀ u a, .address u a ∈ steps → storedAddress m u = some ZeroAddress → a = ZeroAddress

/-- The key under which `load` reads the keys file. -/
def loadKey (pass : Bytes) (w : Opened) : H128 := KeyManager.fileKey P pass w.host.salt

/-- The log of the keys file, decrypted under that key. -/
def loadLog (pass : Bytes) (w : Opened) : StepLog Noting :=
  textLog w.m.m_store.contains (P.decryptSymNoAuth (loadKey P pass w) 0 w.host.keys)

/-- There is no keys file, or it is read to its end, or the key is the one held and what is
noted repeats the tables. -/
def NothingNew (pass : Bytes) (w : Opened) : Prop :=
  w.host.keys = [] ∨ (loadLog P pass w).complete = true ∨
    (loadKey P pass w = w.m.m_keysFileKey ∧ RepeatsTables w.m (loadLog P pass w).steps)

/-! ## The effect of one thing noted -/

/-- What a noting enters into the table of identifiers. -/
theorem note_addrLookup (m : KeyManager) (e : Noting) : (note m e).m_addrLookup =
    UnorderedMap.insertAll m.m_addrLookup (identifierNoted e).toList := by
  cases e <;> rfl

/-- What a noting enters into the table of addresses. -/
theorem note_uuidLookup (m : KeyManager) (e : Noting) : (note m e).m_uuidLookup =
    UnorderedMap.insertAll m.m_uuidLookup (addressNoted e).toList := by
  cases e <;> rfl

/-- What a noting enters into the table of names. -/
theorem note_keyInfo (m : KeyManager) (e : Noting) : (note m e).m_keyInfo =
    UnorderedMap.insertAll m.m_keyInfo (infoNoted e).toList := by
  cases e <;> rfl

/-- What a noting enters into the table of hints. -/
theorem note_passwordHint (m : KeyManager) (e : Noting) : (note m e).m_passwordHint =
    UnorderedMap.insertAll m.m_passwordHint (hintNoted e).toList := by
  cases e <;> rfl

/-- Noting things changes no password. -/
theorem samePasswords_run (l : StepLog Noting) (m : KeyManager) :
    SamePasswords m (l.run note m) := by
  refine StepLog.run_keeps (I := fun m' => SamePasswords m m') note (fun m' e h => ?_) l
    ⟨rfl, rfl, rfl, rfl⟩
  cases e <;> exact ⟨h.1, h.2, h.3, h.4⟩

/-- The address of a key changes only when it is noted for one stored without an address. -/
theorem storedAddress_note (m : KeyManager) (e : Noting) (u : H128) :
    storedAddress (note m e) u = storedAddress m u ∨
      ∃ a, e = .address u a ∧ storedAddress m u = some ZeroAddress ∧
        storedAddress (note m e) u = some a := by
  cases e with
  | address uuid addr =>
      unfold storedAddress note
      rcases lookup_noteAddress m.m_store uuid addr u with heq | ⟨rfl, k, hk, hzero, heq⟩
      · left
        rw [heq]
      · right
        refine ⟨addr, rfl, ?_, ?_⟩
        · rw [hk, Option.map_some, hzero]
        · rw [heq]
          rfl
  | lookup uuid addr => exact Or.inl rfl
  | info addr ki => exact Or.inl rfl
  | hint passHash text => exact Or.inl rfl

/-- An address noted for a key stored without one is the address after that. -/
theorem storedAddress_note_address {m : KeyManager} {u : H128} {a : Address}
    (h : storedAddress m u = some ZeroAddress) :
    storedAddress (note m (.address u a)) u = some a := by
  unfold storedAddress at h
  obtain ⟨k, hk, hzero⟩ := Option.map_eq_some_iff.mp h
  simp [storedAddress, note, SecretStore.noteAddress, hk, hzero]

/-- The address of a key stored with one stays. -/
theorem storedAddress_foldl_of_ne {steps : List Noting} {m : KeyManager} {u : H128} {a : Address}
    (h : storedAddress m u = some a) (ha : a ≠ ZeroAddress) :
    storedAddress (steps.foldl note m) u = some a := by
  induction steps generalizing m with
  | nil => exact h
  | cons e steps ih =>
      refine ih ?_
      rcases storedAddress_note m e u with heq | ⟨a', -, hzero, -⟩
      · exact heq.trans h
      · rw [h] at hzero
        exact (ha (Option.some.inj hzero)).elim

/-- **The addresses in the store stay** exactly when none is given to a key that is stored
without one. -/
theorem storedAddress_foldl_eq_iff (steps : List Noting) (m : KeyManager) :
    (∀ u, storedAddress (steps.foldl note m) u = storedAddress m u) ↔
      ∀ u a, .address u a ∈ steps → storedAddress m u = some ZeroAddress → a = ZeroAddress := by
  constructor
  · intro h u a hmem hzero
    by_contra ha
    have hkept := h u
    clear h
    induction steps generalizing m with
    | nil => exact List.not_mem_nil hmem
    | cons e steps ih =>
        rcases List.mem_cons.mp hmem with rfl | htail
        · rw [List.foldl_cons, storedAddress_foldl_of_ne (storedAddress_note_address hzero) ha,
            hzero] at hkept
          exact ha (Option.some.inj hkept)
        · rw [List.foldl_cons] at hkept
          rcases storedAddress_note m e u with heq | ⟨a', rfl, -, heq⟩
          · exact ih (note m e) htail (heq.trans hzero) (hkept.trans heq.symm)
          · by_cases ha' : a' = ZeroAddress
            · have hstays := heq.trans (congrArg some ha')
              exact ih _ htail hstays (hkept.trans (hzero.trans hstays.symm))
            · rw [storedAddress_foldl_of_ne heq ha', hzero] at hkept
              exact ha' (Option.some.inj hkept)
  · intro h
    induction steps generalizing m with
    | nil => exact fun _ => rfl
    | cons e steps ih =>
        -- a single step changes no address
        have hstep : ∀ u, storedAddress (note m e) u = storedAddress m u := by
          intro u
          rcases storedAddress_note m e u with heq | ⟨a, rfl, hzero, heq⟩
          · exact heq
          · rw [heq, hzero, h u a List.mem_cons_self hzero]
        intro u
        rw [List.foldl_cons, ih, hstep]
        intro u a hmem hzero
        exact h u a (List.mem_cons_of_mem _ hmem) ((hstep u).symm.trans hzero)

/-! ## The property -/

/-- The log of a load leaves everything as it was exactly when the key is the one held and
what is noted repeats the tables. -/
theorem unchanged_run_iff (l : StepLog Noting) (key : H128) (w : Opened) :
    Unchanged w.m (l.run note (withFileKey key w).m) ↔
      key = w.m.m_keysFileKey ∧ RepeatsTables w.m l.steps := by
  have hpasswords := samePasswords_run l (withFileKey key w).m
  have haddr := StepLog.lookup_run_eq_self note_addrLookup l (withFileKey key w).m
  have huuid := StepLog.lookup_run_eq_self note_uuidLookup l (withFileKey key w).m
  have hinfo := StepLog.lookup_run_eq_self note_keyInfo l (withFileKey key w).m
  have hhint := StepLog.lookup_run_eq_self note_passwordHint l (withFileKey key w).m
  have hstore := storedAddress_foldl_eq_iff l.steps (withFileKey key w).m
  constructor
  · intro h
    exact ⟨hpasswords.keysFileKey.symm.trans h.keysFileKey, haddr.mp h.addrLookup,
      huuid.mp h.uuidLookup, hinfo.mp h.keyInfo, hhint.mp h.passwordHint, hstore.mp h.addresses⟩
  · rintro ⟨hkey, h⟩
    exact ⟨hpasswords.keysFileKey.trans hkey, hpasswords.master, huuid.mpr h.uuidLookup,
      haddr.mpr h.addrLookup, hinfo.mpr h.keyInfo, hhint.mpr h.passwordHint, hpasswords.default,
      fun _ => by rw [hpasswords.cachedPasswords]; rfl, hstore.mpr h.addresses⟩

/-- **When a failed load changes nothing.** -/
theorem failureChangesNothing_iff (pass : Bytes) (w : Opened) :
    FailureChangesNothing P pass w ↔ NothingNew P pass w := by
  unfold FailureChangesNothing NothingNew
  by_cases hkeys : w.host.keys = []
  · refine iff_of_true (fun _ => ?_) (Or.inl hkeys)
    rw [finalState_load, if_pos hkeys]
    exact ⟨rfl, rfl, fun _ => rfl, fun _ => rfl, fun _ => rfl, fun _ => rfl, rfl, fun _ => rfl,
      fun _ => rfl⟩
  · rcases load_logs P pass w hkeys with ⟨hdone, hresult⟩ | ⟨hdone, hresult, hm⟩
    · refine iff_of_true (fun hfalse => ?_) (Or.inr (Or.inl hdone))
      rw [hresult] at hfalse
      cases hfalse
    · have hiff := unchanged_run_iff (loadLog P pass w) (loadKey P pass w) w
      rw [hm]
      constructor
      · exact fun h => Or.inr (Or.inr (hiff.mp (h hresult)))
      · rintro (hnil | hcomplete | hrepeats)
        · exact (hkeys hnil).elim
        · exact (hdone hcomplete).elim
        · exact fun _ => hiff.mpr hrepeats

/-- The address of a byte. -/
def addressOfByte (b : UInt8) : Address := FixedHash.ofBytesRight [b]

/-- A computer with one key, stored under the identifier one, and a keys file of two
accounts. The first is that key under another address; the identifier of the second has a
byte too many. -/
def brokenFile : Host where
  accountDir := (∅ : UnorderedMap H128 EncryptedKey).insert (FixedHash.ofBytesRight [1])
    ⟨⟨.other, .other, 0, [], .none, false⟩, addressOfByte 3⟩
  keys := reference.encryptSymNoAuth (KeyManager.fileKey reference [2] []) 0 <|
    encodeList [[1], encodeList
      [encodeList (infoFields (addressOfByte 5, FixedHash.ofBytesRight [1], {})),
        encodeList [encodeData (List.replicate 20 1), encodeData (List.replicate 17 1)]]]

/-- Loading it returns `false`, and the other address now stands for the key. -/
theorem account_noted_by_failure : ¬ FailureChangesNothing reference [2]
    { m := KeyManager.new Order.held brokenFile, host := brokenFile } := by
  intro h
  have hnoted := (h (by decide +kernel)).addrLookup (addressOfByte 5)
  revert hnoted
  decide +kernel

end TronWallet.Theorems
