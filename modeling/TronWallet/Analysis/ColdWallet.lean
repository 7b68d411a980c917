import TronWallet.Analysis.KeysFileContents
import TronWallet.Analysis.Steps
import TronWallet.Model.ColdFileWrite

/-!
# The cold wallet: what is generated, written and read

The three operations on cold addresses are described like the others, by the ways they can
end.  `GenerateAddress` notes the new address and then may or may not write a file;
`LoadAddresses` either changes nothing or notes the dictionary it read.  Every other
operation leaves the two tables of the cold wallet and its files alone
(`sameCold_step`).

Both file operations go through one question to the key manager, `coldKey`: the key and
the initialisation vector found for an account.
-/

set_option autoImplicit false

namespace TronWallet.Analysis

open TronWallet.Lib TronWallet.Model

variable (P : Platform)

/-! ## The JSON library -/

/-- A letter or a digit. -/
def Alphanumeric (c : UInt8) : Prop :=
  (48 ≤ c ∧ c ≤ 57) ∨ (65 ≤ c ∧ c ≤ 90) ∨ (97 ≤ c ∧ c ≤ 122)

instance (c : UInt8) : Decidable (Alphanumeric c) := by
  unfold Alphanumeric
  infer_instance

/-- A dictionary that holds only strings, all texts being letters and digits. -/
def Plain (d : Dictionary) : Prop :=
  ∀ e ∈ d, (∀ c ∈ e.1, Alphanumeric c) ∧ ∃ v, e.2 = .string v ∧ ∀ c ∈ v, Alphanumeric c

/-- What the wallet relies on: reading inverts writing, a dictionary has a text, and no
text is no JSON. -/
structure JsonLaws : Prop where
  read_write : ∀ d : Dictionary, d.Sorted → Plain d →
    P.jsonRead (P.jsonWrite (.dictionary d)) = some (.dictionary d)
  write_ne_nil : ∀ d : Dictionary, P.jsonWrite (.dictionary d) ≠ []
  read_nil : P.jsonRead [] = none

/-! ## The key of a cold file -/

/-- The key and the initialisation vector found for the cold file of an account, `none` when
there is nothing to encrypt with. -/
def coldKey (o : Order) (m : KeyManager) (a : Address) : Except Exn (Option (H128 × H128)) :=
  match m.getPassword (m.uuid a) with
  | .error e => .error e
  | .ok pass =>
    if pass = [] then .ok none
    else match m.m_store.key o a with
      | none => .ok none
      | some k =>
        let derivedKey := SecretStore.reusedKey P k.encryptedKey pass
        if derivedKey = [] then .ok none
        else match k.encryptedKey.cipher with
          | .other => .ok none
          | .aes128ctr => .ok (some (FixedHash.ofBytesLeft derivedKey, k.encryptedKey.iv))

/-- Encryption uses that key. -/
theorem encryptUseEncryptedKey_eq (o : Order) (m : KeyManager) (v : Bytes) (a : Address) :
    m.encryptUseEncryptedKey P o v a = match coldKey P o m a with
      | .error e => .error e
      | .ok none => .ok ([], none)
      | .ok (some (key, iv)) =>
        if P.encryptSymNoAuth key iv v = [] then .error .cryptoException
        else .ok (P.encryptSymNoAuth key iv v,
          some { site := .coldFile, key := key, iv := iv, plain := v }) := by
  unfold KeyManager.encryptUseEncryptedKey coldKey SecretStore.encryptUseEncryptedKey
  cases m.getPassword (m.uuid a) with
  | error e => rfl
  | ok pass =>
      simp only [bind, Except.bind]
      by_cases hpass : pass = []
      · rw [if_pos hpass, if_pos hpass]
      · rw [if_neg hpass, if_neg hpass]
        cases m.m_store.key o a with
        | none => rfl
        | some k =>
            simp only
            by_cases hkey : SecretStore.reusedKey P k.encryptedKey pass = []
            · rw [if_pos hkey, if_pos hkey]
            · rw [if_neg hkey, if_neg hkey]
              cases k.encryptedKey.cipher <;> rfl

/-- Decryption uses that key. -/
theorem decryptUseEncryptedKey_eq (o : Order) (m : KeyManager) (v : Bytes) (a : Address) :
    m.decryptUseEncryptedKey P o v a = match coldKey P o m a with
      | .error e => .error e
      | .ok none => .ok []
      | .ok (some (key, iv)) => .ok (P.decryptSymNoAuth key iv v) := by
  unfold KeyManager.decryptUseEncryptedKey coldKey SecretStore.decryptUseEncryptedKey
  cases m.getPassword (m.uuid a) with
  | error e => rfl
  | ok pass =>
      simp only [bind, Except.bind]
      by_cases hpass : pass = []
      · rw [if_pos hpass, if_pos hpass]
      · rw [if_neg hpass, if_neg hpass]
        cases m.m_store.key o a with
        | none => rfl
        | some k =>
            simp only
            by_cases hkey : SecretStore.reusedKey P k.encryptedKey pass = []
            · rw [if_pos hkey, if_pos hkey]
            · rw [if_neg hkey, if_neg hkey]
              cases k.encryptedKey.cipher <;> rfl

/-! ## Generating an address -/

/-- The text of the address of a key pair. -/
def coldAddress (k : KeyPair) : Bytes := addressEncodeBase58Check P (toTronAddress k.m_address)

/-- The wallet with a generated key noted, before anything is encrypted. -/
def noted (o : Order) (d : GenerateDraws) (k : KeyPair) (w : Wallet) : Wallet :=
  { withOpened w (opened o w) with
    address_lookup_ := UnorderedMap.emplace w.address_lookup_ d.uuid (coldAddress P k)
    cached_ := UnorderedMap.emplace w.cached_ d.uuid k.m_secret.m_data }

/-- A question to the key manager once a key has been noted. -/
theorem askKeyManager_noted {α : Type} (f : KeyManager → Except Exn α) (o : Order)
    (d : GenerateDraws) (k : KeyPair) (w : Wallet) : Wallet.askKeyManager f (noted P o d k w) =
      Exec.ofExcept (f (manager o w)) (noted P o d k w) :=
  askKeyManager_apply f { w with
    address_lookup_ := UnorderedMap.emplace w.address_lookup_ d.uuid (coldAddress P k)
    cached_ := UnorderedMap.emplace w.cached_ d.uuid k.m_secret.m_data } (opened o w)

/-- The text of the dictionary a wallet would write. -/
def coldText (o : Order) (w : Wallet) : Bytes := P.jsonWrite (.dictionary (w.coldDictionary o))

/-- The encryption of the cold file of a wallet. -/
def coldCall (o : Order) (w : Wallet) (key iv : H128) : CtrCall :=
  { site := .coldFile, key := key, iv := iv, plain := coldText P o w }

/-- The wallet after its cold file has been written under a key. -/
def wroteCold (o : Order) (key iv : H128) (w : Wallet) : Wallet :=
  let host := w.host.noteCtrCall (coldCall P o w key iv)
  if toHex w.Address = [] then { w with host := host }
  else { w with host := { host with
    coldWallet := host.coldWallet.insert (toHex w.Address)
      (P.encryptSymNoAuth key iv (coldText P o w)) } }

/-- The wallet after the encryption of its cold file has been recorded. -/
def recorded (o : Order) (key iv : H128) (w : Wallet) : Wallet :=
  { w with host := w.host.noteCtrCall (coldCall P o w key iv) }

/-- The ways the part of `GenerateAddress` up to the write can end: it throws, or what
follows is called. -/
inductive ReachesWrite {α : Type} (o : Order) (d : GenerateDraws) (w : Wallet)
    (write : Bytes → Bytes → Bytes → Exec Wallet α) : EStateM.Result Exn Wallet α → Prop where
  | noKey (e : Exn) (hk : Wallet.makeKey P d.seed d.rounds = .error e) :
      ReachesWrite o d w write (.error e (withOpened w (opened o w)))
  | threw (e : Exn) (k : KeyPair) (hk : Wallet.makeKey P d.seed d.rounds = .ok k)
      (hnone : ∀ key iv,
        coldKey P o (manager o w) (toAddress w.Address) ≠ .ok (some (key, iv))) :
      ReachesWrite o d w write (.error e (noted P o d k w))
  | reached (k : KeyPair) (key iv : H128) (hk : Wallet.makeKey P d.seed d.rounds = .ok k)
      (hkey : coldKey P o (manager o w) (toAddress w.Address) = .ok (some (key, iv))) :
      ReachesWrite o d w write (write (toHex w.Address)
        (P.encryptSymNoAuth key iv (coldText P o (noted P o d k w))) (coldAddress P k)
        (recorded P o key iv (noted P o d k w)))

/-- `GenerateAddress` up to its write: it throws, or it reaches the write. -/
theorem generateAddressUpTo_ends {α : Type} (hjson : JsonLaws P) (o : Order) (d : GenerateDraws)
    (w : Wallet) (write : Bytes → Bytes → Bytes → Exec Wallet α) :
    ReachesWrite P o d w write (Wallet.generateAddressUpTo P o d write w) := by
  unfold Wallet.generateAddressUpTo
  rw [Exec.bind_apply, openWallet_apply]
  simp only
  rw [Exec.bind_apply]
  cases hk : Wallet.makeKey P d.seed d.rounds with
  | error e => exact .noKey e hk
  | ok k =>
      simp only [Exec.ofExcept_ok]
      rw [Exec.bind_apply, Exec.modify_apply]
      simp only
      rw [show ({ withOpened w (opened o w) with
          address_lookup_ := UnorderedMap.emplace (withOpened w (opened o w)).address_lookup_ d.uuid
            (addressEncodeBase58Check P (toTronAddress k.m_address)),
          cached_ := UnorderedMap.emplace (withOpened w (opened o w)).cached_ d.uuid
            k.m_secret.m_data } : Wallet) = noted P o d k w from rfl]
      rw [Exec.bind_apply, Exec.get_apply]
      simp only
      rw [Exec.bind_apply, askKeyManager_noted, encryptUseEncryptedKey_eq,
        show (noted P o d k w).Address = w.Address from rfl]
      have hne := hjson.write_ne_nil ((noted P o d k w).coldDictionary o)
      cases hkey : coldKey P o (manager o w) (toAddress w.Address) with
      | error e =>
          refine .threw e k hk fun key iv h => ?_
          rw [hkey] at h
          cases h
      | ok found =>
          cases found with
          | none =>
              simp only [Exec.ofExcept_ok, Exec.bind_apply, Exec.modify_apply, List.length_nil,
                List.length_pos_iff.mpr hne, if_true, Exec.throw_apply]
              refine .threw .outOfBounds k hk fun key iv h => ?_
              rw [hkey] at h
              cases h
          | some pair =>
              obtain ⟨key, iv⟩ := pair
              have hcipher : P.encryptSymNoAuth key iv
                  (P.jsonWrite (.dictionary ((noted P o d k w).coldDictionary o))) ≠ [] :=
                fun h => hne (Platform.encryptSymNoAuth_eq_nil P |>.mp h)
              simp only [if_neg hcipher, Exec.ofExcept_ok, Exec.bind_apply, Exec.modify_apply,
                Platform.encryptSymNoAuth_length, lt_irrefl, if_false, Option.elim_some]
              have htake : ∀ b : Bytes, (P.encryptSymNoAuth key iv b).take b.length =
                  P.encryptSymNoAuth key iv b := fun b => by
                rw [← Platform.encryptSymNoAuth_length P key iv b, List.take_length]
              rw [htake]
              exact .reached k key iv hk hkey

/-- The ways `GenerateAddress` can end, with what it returns. -/
inductive GenerateEnds (o : Order) (d : GenerateDraws) (w : Wallet) :
    EStateM.Result Exn Wallet Bytes → Prop where
  | noKey (e : Exn) (hk : Wallet.makeKey P d.seed d.rounds = .error e) :
      GenerateEnds o d w (.error e (withOpened w (opened o w)))
  | threw (e : Exn) (k : KeyPair) (hk : Wallet.makeKey P d.seed d.rounds = .ok k) :
      GenerateEnds o d w (.error e (noted P o d k w))
  | done (k : KeyPair) (key iv : H128) (hk : Wallet.makeKey P d.seed d.rounds = .ok k)
      (hkey : coldKey P o (manager o w) (toAddress w.Address) = .ok (some (key, iv))) :
      GenerateEnds o d w (.ok (coldAddress P k) (wroteCold P o key iv (noted P o d k w)))

/-- Writing what has been recorded. -/
theorem writeColdFile_recorded (o : Order) (key iv : H128) (w : Wallet) (address : Bytes) :
    (do Wallet.writeColdFile (toHex w.Address) (P.encryptSymNoAuth key iv (coldText P o w))
        return address : Exec Wallet Bytes) (recorded P o key iv w) =
      .ok address (wroteCold P o key iv w) := by
  unfold Wallet.writeColdFile wroteCold
  simp only [Exec.bind_apply, Exec.modify_apply, Exec.pure_apply]
  by_cases hname : toHex w.Address = []
  · simp only [if_pos hname]
    rfl
  · simp only [if_neg hname]
    rfl

/-- The ways `GenerateAddress` can end. -/
theorem generateAddress_ends (hjson : JsonLaws P) (o : Order) (d : GenerateDraws) (w : Wallet) :
    GenerateEnds P o d w (Wallet.generateAddress P o d w) := by
  rw [Wallet.generateAddress_eq_upTo]
  have h := generateAddressUpTo_ends P hjson o d w fun name data address => do
    Wallet.writeColdFile name data
    return address
  generalize Wallet.generateAddressUpTo P o d _ w = r at h
  cases h with
  | noKey e hk => exact .noKey e hk
  | threw e k hk hnone => exact .threw e k hk
  | reached k key iv hk hkey =>
      have hwrite := writeColdFile_recorded P o key iv (noted P o d k w) (coldAddress P k)
      rw [show (noted P o d k w).Address = w.Address from rfl] at hwrite
      rw [hwrite]
      exact .done k key iv hk hkey

/-- The ways `GenerateAddress` can end, by the state alone. -/
inductive GenerateLeaves (o : Order) (d : GenerateDraws) (w w' : Wallet) : Prop where
  | noKey (e : Exn) (hk : Wallet.makeKey P d.seed d.rounds = .error e)
      (hw : w' = withOpened w (opened o w))
  | threw (k : KeyPair) (hk : Wallet.makeKey P d.seed d.rounds = .ok k)
      (hw : w' = noted P o d k w)
  | done (k : KeyPair) (key iv : H128) (hk : Wallet.makeKey P d.seed d.rounds = .ok k)
      (hkey : coldKey P o (manager o w) (toAddress w.Address) = .ok (some (key, iv)))
      (hw : w' = wroteCold P o key iv (noted P o d k w))

/-- What a step of `GenerateAddress` leaves. -/
theorem generateAddress_leaves (hjson : JsonLaws P) (o : Order) (d : GenerateDraws) (w : Wallet) :
    GenerateLeaves P o d w (Wallet.step P w (.generateAddress o d)) := by
  have h := generateAddress_ends P hjson o d w
  show GenerateLeaves P o d w (Exec.finalState (Wallet.generateAddress P o d) w)
  unfold Exec.finalState
  generalize Wallet.generateAddress P o d w = r at h
  cases h with
  | noKey e hk => exact .noKey e hk rfl
  | threw e k hk => exact .threw k hk rfl
  | done k key iv hk hkey => exact .done k key iv hk hkey rfl

/-- No cold file is encrypted when there is nothing to encrypt it with. -/
theorem ctrCalls_generateAddress {o : Order} {d : GenerateDraws} {w : Wallet}
    (h : (coldKey P o (manager o w) (toAddress w.Address)).toOption.join = none) :
    (Wallet.step P w (.generateAddress o d)).host.ctrCalls = w.host.ctrCalls := by
  show (Exec.finalState (Wallet.generateAddress P o d) w).host.ctrCalls = w.host.ctrCalls
  unfold Wallet.generateAddress
  rw [Exec.finalState_bind, openWallet_apply]
  simp only
  rw [Exec.finalState_ofExcept_bind]
  cases hk : Wallet.makeKey P d.seed d.rounds with
  | error e => rfl
  | ok k =>
      simp only
      rw [Exec.finalState_modify_bind, Exec.finalState_get_bind, Exec.finalState_bind,
        show ({ withOpened w (opened o w) with
          address_lookup_ := UnorderedMap.emplace (withOpened w (opened o w)).address_lookup_ d.uuid
            (addressEncodeBase58Check P (toTronAddress k.m_address)),
          cached_ := UnorderedMap.emplace (withOpened w (opened o w)).cached_ d.uuid
            k.m_secret.m_data } : Wallet) = noted P o d k w from rfl, askKeyManager_noted,
        encryptUseEncryptedKey_eq, show (noted P o d k w).Address = w.Address from rfl]
      cases hkey : coldKey P o (manager o w) (toAddress w.Address) with
      | error e => rfl
      | ok found =>
          cases found with
          | some pair =>
              rw [hkey] at h
              cases h
          | none =>
              simp only [Exec.ofExcept_ok, Exec.finalState_modify_bind]
              split
              · rfl
              · rw [Exec.finalState_bind]
                unfold Wallet.writeColdFile
                simp only [Exec.modify_apply, Exec.finalState_pure]
                split <;> rfl

/-! ## Loading addresses -/

/-- Noting a dictionary touches nothing but the two tables. -/
theorem noteAllLoaded_frame (uuids : ℕ → H128) (i : ℕ) (root : Dictionary) (w : Wallet) :
    (Wallet.noteAllLoaded uuids i root w).m_keyManager = w.m_keyManager ∧
      (Wallet.noteAllLoaded uuids i root w).address_pair_ = w.address_pair_ ∧
      (Wallet.noteAllLoaded uuids i root w).host = w.host := by
  induction root generalizing i w with
  | nil => exact ⟨rfl, rfl, rfl⟩
  | cons e root ih =>
      obtain ⟨hm, ha, hh⟩ := ih (i + 1) (Wallet.noteLoaded w (uuids i) e.1 e.2)
      have hone : (Wallet.noteLoaded w (uuids i) e.1 e.2).m_keyManager = w.m_keyManager ∧
          (Wallet.noteLoaded w (uuids i) e.1 e.2).address_pair_ = w.address_pair_ ∧
          (Wallet.noteLoaded w (uuids i) e.1 e.2).host = w.host := by
        unfold Wallet.noteLoaded
        split
        · split <;> exact ⟨rfl, rfl, rfl⟩
        · exact ⟨rfl, rfl, rfl⟩
      exact ⟨hm.trans hone.1, ha.trans hone.2.1, hh.trans hone.2.2⟩

/-- The ways `LoadAddresses` can end. -/
inductive LoadEnds (o : Order) (uuids : ℕ → H128) (w w' : Wallet) : Prop where
  | unchanged (hw : w' = w)
  | read (m : KeyManager) (data : Bytes) (key iv : H128) (root : Dictionary)
      (hempty : w.cached_ = ∅ ∨ w.address_lookup_ = ∅) (hm : w.m_keyManager = some m)
      (hdata : w.host.coldWallet.lookup (toHex w.Address) = some data)
      (hkey : coldKey P o m (toAddress w.Address) = .ok (some (key, iv)))
      (hroot : P.jsonRead (P.decryptSymNoAuth key iv data) = some (.dictionary root))
      (hw : w' = Wallet.noteAllLoaded uuids 0 root w)

/-- The ways `LoadAddresses` can end. -/
theorem loadAddresses_ends (hjson : JsonLaws P) (o : Order) (uuids : ℕ → H128) (w : Wallet) :
    LoadEnds P o uuids w (Exec.finalState (Wallet.loadAddresses P o uuids) w) := by
  unfold Wallet.loadAddresses
  rw [Exec.finalState_get_bind]
  by_cases hfull : UnorderedMap.isEmpty w.cached_ = false ∧
      UnorderedMap.isEmpty w.address_lookup_ = false
  · rw [if_pos hfull]
    exact .unchanged rfl
  · rw [if_neg hfull]
    have hempty : w.cached_ = ∅ ∨ w.address_lookup_ = ∅ := by
      rw [not_and_or, Bool.not_eq_false, Bool.not_eq_false] at hfull
      exact hfull.imp UnorderedMap.isEmpty_iff.mp UnorderedMap.isEmpty_iff.mp
    cases hdata : w.host.coldWallet.lookup (toHex w.Address) with
    | none => exact .unchanged rfl
    | some data =>
        simp only
        rw [Exec.finalState_bind]
        unfold Wallet.askKeyManager
        rw [Exec.bind_apply, Exec.get_apply]
        simp only
        cases hm : w.m_keyManager with
        | none => exact .unchanged rfl
        | some m =>
            simp only
            rw [decryptUseEncryptedKey_eq]
            cases hkey : coldKey P o m (toAddress w.Address) with
            | error e => exact .unchanged rfl
            | ok found =>
                cases found with
                | none =>
                    simp only [Exec.ofExcept_ok, hjson.read_nil]
                    exact .unchanged rfl
                | some pair =>
                    obtain ⟨key, iv⟩ := pair
                    simp only [Exec.ofExcept_ok]
                    cases hroot : P.jsonRead (P.decryptSymNoAuth key iv data) with
                    | none => exact .unchanged rfl
                    | some v =>
                        cases v with
                        | dictionary root =>
                            exact .read m data key iv root hempty hm hdata hkey hroot rfl
                        | _ => exact .unchanged rfl

/-- `GetAddresses` changes what `LoadAddresses` changes, and lists the addresses held. -/
theorem getAddresses_ends (hjson : JsonLaws P) (o : Order) (uuids : ℕ → H128) (w : Wallet) :
    LoadEnds P o uuids w (Exec.finalState (Wallet.getAddresses P o uuids) w) ∧
      ∀ l, Exec.result? (Wallet.getAddresses P o uuids) w = some l →
        ∀ s ∈ l, ∃ uuid, (Exec.finalState (Wallet.getAddresses P o uuids) w).address_lookup_.lookup
          uuid = some s := by
  have hlist : ∀ (w' : Wallet) (s : Bytes),
      s ∈ (o.iterate w'.address_lookup_).map Prod.snd →
        ∃ uuid, w'.address_lookup_.lookup uuid = some s := by
    intro w' s hs
    obtain ⟨⟨uuid, s'⟩, hmem, rfl⟩ := List.mem_map.mp hs
    exact ⟨uuid, (Order.mem_iterate o).mp hmem⟩
  have hload := loadAddresses_ends P hjson o uuids w
  unfold Exec.finalState at hload
  unfold Wallet.getAddresses Exec.result? Exec.finalState
  rw [Exec.bind_apply, Exec.get_apply]
  simp only
  by_cases hempty : UnorderedMap.isEmpty w.cached_ ∨ UnorderedMap.isEmpty w.address_lookup_
  · rw [if_pos hempty, Exec.bind_apply]
    cases hrun : Wallet.loadAddresses P o uuids w with
    | ok u w' =>
        rw [hrun] at hload
        simp only [Exec.bind_apply, Exec.get_apply, Exec.pure_apply]
        refine ⟨hload, fun l hl s hs => ?_⟩
        cases hl
        exact hlist w' s hs
    | error e w' =>
        rw [hrun] at hload
        simp only
        exact ⟨hload, fun l hl => by cases hl⟩
  · rw [if_neg hempty]
    simp only [Exec.pure_apply, Exec.bind_apply, Exec.get_apply]
    refine ⟨.unchanged rfl, fun l hl s hs => ?_⟩
    cases hl
    exact hlist w s hs

/-! ## What the other operations leave alone -/

/-- Two wallets with the same cold addresses, in memory and on disk. -/
structure SameCold (w w' : Wallet) : Prop where
  lookup : w'.address_lookup_ = w.address_lookup_
  cached : w'.cached_ = w.cached_
  files : w'.host.coldWallet = w.host.coldWallet
  calls : ∀ c : CtrCall, c.site = .coldFile → (c ∈ w'.host.ctrCalls ↔ c ∈ w.host.ctrCalls)

/-- A wallet has the cold keys that it has. -/
theorem SameCold.refl (w : Wallet) : SameCold w w := ⟨rfl, rfl, rfl, fun _ _ => Iff.rfl⟩

/-- Writing the keys file does not touch the cold files. -/
theorem calls_afterWrite (o : Order) (w : Opened) (c : CtrCall) (hc : c.site = .coldFile) :
    c ∈ (afterWrite P o w).host.ctrCalls ↔ c ∈ w.host.ctrCalls :=
  mem_ctrCalls_afterWrite P o w (by rw [hc]; decide)

/-- Importing an account records the encryption of its secret and no other. -/
theorem mem_ctrCalls_imported {c : Account} {w : Opened} {x : CtrCall} :
    x ∈ (imported P c w).host.ctrCalls ↔ x = c.ctrCall P ∨ x ∈ w.host.ctrCalls :=
  List.mem_cons

/-- Importing an account leaves the cold keys. -/
theorem sameCold_imported (o : Order) (c : Account) (w : Wallet) :
    SameCold w (withOpened w (afterWrite P o (imported P c (opened o w)))) := by
  refine ⟨rfl, rfl, ?_, fun x hx => ?_⟩
  · rw [withOpened_host, afterWrite_coldWallet]
    rfl
  · rw [withOpened_host, calls_afterWrite P o _ x hx, mem_ctrCalls_imported]
    refine ⟨fun h => h.resolve_left ?_, Or.inr⟩
    rintro rfl
    cases hx

/-- Logging in, logging out and creating an account leave the cold addresses alone. -/
theorem sameCold_createAccount (o : Order) (name password : Bytes) (d : CreateDraws)
    (w : Wallet) : SameCold w (Wallet.step P w (.createAccount o name password d)) := by
  rcases createAccount_ends P o name password d w with
    ⟨e, hk, hw⟩ | ⟨k, c, hk, hc, hcan, hw⟩ | ⟨k, c, hk, hc, hcan, hexists, hw⟩ |
      ⟨k, c, hk, hc, hcan, hexists, hw⟩
  · rw [hw]
    exact ⟨rfl, rfl, rfl, fun _ _ => Iff.rfl⟩
  · rw [hw]
    exact sameCold_imported P o c w
  · rw [hw]
    have h := sameCold_imported P o c w
    exact ⟨h.lookup, h.cached, h.files, h.calls⟩
  · rw [hw]
    have h := sameCold_imported P o c w
    refine ⟨rfl, rfl, ?_, fun x hx => ?_⟩
    · rw [loggedIn_host, withOpened_host, afterWriteKey_coldWallet]
      exact h.files
    · rw [loggedIn_host, withOpened_host, mem_ctrCalls_afterWriteKey P o _ _ (by rw [hx]; decide)]
      exact h.calls x hx

/-- A logout leaves the cold keys in memory and on disk. -/
theorem sameCold_logout (o : Order) (w : Wallet) :
    SameCold w (Wallet.step P w (.logout o)) := by
  rcases logout_ends P o w with ⟨hm, hw⟩ | ⟨m, hm, hcan, hw⟩ | ⟨m, hm, hcan, hw⟩
  · rw [hw]
    exact .refl w
  · rw [hw]
    refine ⟨rfl, rfl, ?_, fun x hx => ?_⟩
    · rw [withOpened_host, afterWrite_coldWallet]
      rfl
    · rw [withOpened_host, calls_afterWrite P o _ x hx]
      rfl
  · rw [hw]
    refine ⟨rfl, rfl, ?_, fun x hx => ?_⟩
    · rw [show ({ withOpened w (afterWrite P o (forgotten w m)) with
        address_pair_ := ([], []) } : Wallet).host = (afterWrite P o (forgotten w m)).host from rfl,
        afterWrite_coldWallet]
      rfl
    · rw [show ({ withOpened w (afterWrite P o (forgotten w m)) with
        address_pair_ := ([], []) } : Wallet).host = (afterWrite P o (forgotten w m)).host from rfl,
        calls_afterWrite P o _ x hx]
      rfl

/-- A login leaves the cold keys in memory and on disk. -/
theorem sameCold_login (o : Order) (password : Bytes) (w : Wallet) :
    SameCold w (Wallet.step P w (.login o password)) := by
  have hwrite : ∀ u, SameCold w
      (withOpened w (afterWrite P o (enteredAgain P u password (opened o w)))) := by
    intro u
    refine ⟨rfl, rfl, ?_, fun x hx => ?_⟩
    · rw [withOpened_host, afterWrite_coldWallet]
      rfl
    · rw [withOpened_host, calls_afterWrite P o _ x hx]
      rfl
  rcases login_leaves P o password w with ⟨hnone, hw⟩ | ⟨u, hu, hcan, hw⟩ | ⟨u, hu, hcan, hw⟩
  · rw [hw]
    exact ⟨rfl, rfl, rfl, fun _ _ => Iff.rfl⟩
  · rw [hw]
    exact hwrite u
  · rw [hw]
    have h := hwrite u
    have hload := load_frame P password (afterWrite P o (enteredAgain P u password (opened o w)))
    refine ⟨rfl, rfl, hload.coldWallet.trans h.files, fun x hx => ?_⟩
    rw [loggedIn_host, withOpened_host, hload.ctrCalls]
    exact h.calls x hx

end TronWallet.Analysis
