import TronWallet.Analysis.Sessions

/-!
# Key files in memory and on disk

The store of a key manager is read from the directory of key files when it is opened, and
every change of it is written back, so that memory and disk hold the same encrypted keys
(`StoreSync`).  Addresses may be noted in memory for keys stored without one; nothing that
decrypts depends on them.
-/

set_option autoImplicit false

namespace TronWallet.Analysis

open TronWallet.Lib TronWallet.Model

variable (P : Platform)

/-! ## Noting an address -/

/-- The entries of a store after an address has been noted: at most the address of the
one key changes. -/
theorem lookup_noteAddress (s : SecretStore) (uuid : H128) (a : Address) (u : H128) :
    (s.noteAddress uuid a).2.m_keys.lookup u = s.m_keys.lookup u ∨
      (u = uuid ∧ ∃ k, s.m_keys.lookup u = some k ∧ k.address = ZeroAddress ∧
        (s.noteAddress uuid a).2.m_keys.lookup u = some { k with address := a }) := by
  unfold SecretStore.noteAddress
  cases hk : s.m_keys.lookup uuid with
  | none => exact Or.inl rfl
  | some k =>
      dsimp only
      split
      next hzero =>
        by_cases hu : u = uuid
        · subst hu
          exact Or.inr ⟨rfl, k, hk, hzero, by simp⟩
        · left
          rw [UnorderedMap.lookup_insert_eq, if_neg hu]
      next => exact Or.inl rfl

/-- The address the store has for a key. -/
def storedAddress (m : KeyManager) (u : H128) : Option Address :=
  (m.m_store.m_keys.lookup u).map EncryptedKey.address

/-- Noting the address a key is stored with changes no key. -/
theorem lookup_noteAddress_self {m : KeyManager} {uuid : H128} {a : Address}
    (h : storedAddress m uuid = some a) (u : H128) :
    (m.m_store.noteAddress uuid a).2.m_keys.lookup u = m.m_store.m_keys.lookup u := by
  rcases lookup_noteAddress m.m_store uuid a u with heq | ⟨rfl, k, hk, hzero, heq⟩
  · exact heq
  · rw [storedAddress, hk] at h
    have ha : k.address = a := Option.some.inj h
    rw [heq, hk, ← ha]

/-- Noting an address changes no encrypted key. -/
theorem encryptedKey_noteAddress (s : SecretStore) (uuid : H128) (a : Address) (u : H128) :
    ((s.noteAddress uuid a).2.m_keys.lookup u).map EncryptedKey.encryptedKey =
      (s.m_keys.lookup u).map EncryptedKey.encryptedKey := by
  rcases lookup_noteAddress s uuid a u with heq | ⟨-, k, hk, -, heq⟩
  · rw [heq]
  · rw [heq, hk]
    rfl

/-- Noting an account keeps the keys that are in the store. -/
theorem noteInfo_contains (x : Opened × Bool) (i : Address × H128 × KeyInfo) (u : H128)
    (h : x.1.m.m_store.contains u = true) : (noteInfo x i).1.m.m_store.contains u = true := by
  unfold noteInfo
  split
  · exact h
  · dsimp only
    split
    · unfold SecretStore.contains at h ⊢
      rw [decide_eq_true_eq, ← AList.lookup_isSome] at h ⊢
      have hkey := congrArg Option.isSome
        (encryptedKey_noteAddress x.1.m.m_store i.2.1 i.1 u)
      rw [Option.isSome_map, Option.isSome_map] at hkey
      exact hkey.trans h
    · exact h

/-- The keys after a key has been asked for. -/
theorem encryptedKey_unlocked (s : SecretStore) (uuid : H128) (pass : Bytes) (u : H128) :
    ((unlocked P s uuid pass).m_keys.lookup u).map EncryptedKey.encryptedKey =
      (s.m_keys.lookup u).map EncryptedKey.encryptedKey := by
  unfold unlocked
  split
  · rfl
  · exact encryptedKey_noteAddress _ _ _ u

/-- The cache after a key has been asked for holds what was given, and else what it held. -/
theorem lookup_cached_unlocked (s : SecretStore) (uuid : H128) (pass : Bytes) (u : H128) :
    (unlocked P s uuid pass).m_cached.lookup u = s.m_cached.lookup u ∨
      (u = uuid ∧ s.m_cached.lookup u = none ∧ unlock P s uuid pass ≠ [] ∧
        (unlocked P s uuid pass).m_cached.lookup u = some (unlock P s uuid pass)) := by
  unfold unlocked
  split
  next => exact Or.inl rfl
  next h =>
    rw [not_or] at h
    simp only [noteAddress_m_cached]
    by_cases hu : u = uuid
    · subst hu
      exact Or.inr ⟨rfl, AList.lookup_eq_none.mpr h.1, h.2, by simp⟩
    · left
      rw [UnorderedMap.lookup_insert_eq, if_neg hu]

/-! ## Memory and disk -/

/-- Memory and disk hold the same encrypted keys, and no cached secret is empty. -/
structure StoreSync (s : Opened) : Prop where
  keys : ∀ u, (s.m.m_store.m_keys.lookup u).map EncryptedKey.encryptedKey =
    (s.host.accountDir.lookup u).map EncryptedKey.encryptedKey
  cached : ∀ u b, s.m.m_store.m_cached.lookup u = some b → b ≠ []

/-- Whether the store is that of the directory depends on these two only. -/
theorem StoreSync.of_eq {s s' : Opened} (h : StoreSync s) (hstore : s'.m.m_store = s.m.m_store)
    (hdir : s'.host.accountDir = s.host.accountDir) : StoreSync s' := by
  refine ⟨?_, ?_⟩
  · rw [hstore, hdir]
    exact h.keys
  · rw [hstore]
    exact h.cached

/-- Writing the store back changes nothing on disk that matters. -/
theorem StoreSync.save {s : Opened} (h : StoreSync s) :
    StoreSync { s with host := s.m.m_store.save s.host } := by
  refine ⟨fun u => ?_, h.cached⟩
  have hu := h.keys u
  simp only [SecretStore.save, UnorderedMap.lookup_insertAll_pairs]
  cases hk : s.m.m_store.m_keys.lookup u with
  | none =>
      rw [hk] at hu
      simpa using hu
  | some k => rfl

/-- Loading the keys file keeps the store in step with the disk. -/
theorem storeSync_load {pass : Bytes} {s : Opened} (h : StoreSync s) :
    StoreSync (Exec.finalState (KeyManager.load P pass) s) := by
  have hI : LoadProof StoreSync :=
    ⟨⟨⟨fun s m hm _ hs => hs.of_eq hm rfl, fun s uuid a hs => ⟨fun u => ?_, ?_⟩,
      fun s hs => hs.save⟩, fun s m hm _ hs => hs.of_eq hm rfl⟩, fun s key hs => hs.of_eq rfl rfl⟩
  · exact load_keeps P hI pass s h
  · exact (encryptedKey_noteAddress _ _ _ u).trans (hs.keys u)
  · rw [noteAddress_m_cached]
    exact hs.cached

/-- Writing the keys file under a key leaves the store and the directory. -/
theorem storeSync_afterWriteKey {o : Order} {key : H128} {s : Opened} (h : StoreSync s) :
    StoreSync (afterWriteKey P o key s) :=
  h.of_eq (sameTables_afterWriteKey P o key s).store (afterWriteKey_accountDir P o key s)

/-- Writing the keys file leaves the store and the directory. -/
theorem storeSync_afterWrite {o : Order} {s : Opened} (h : StoreSync s) :
    StoreSync (afterWrite P o s) :=
  h.of_eq (sameTables_afterWrite P o s).store (afterWrite_accountDir P o s)

/-- Importing an account stores its key in both places. -/
theorem storeSync_imported {c : Account} {s : Opened} (h : StoreSync s) :
    StoreSync (imported P c s) := by
  have hstored : StoreSync { s with m := { s.m with m_store := withAccount P c s.m.m_store }
                                    host := (withAccount P c s.m.m_store).save s.host } := by
    refine ⟨fun u => ?_, fun u b hb => ?_⟩
    · simp only [SecretStore.save, UnorderedMap.lookup_insertAll_pairs]
      have hu := h.keys u
      simp only [withAccount, UnorderedMap.lookup_insert_eq]
      by_cases huc : u = c.uuid
      · simp [huc]
      · rw [if_neg huc]
        cases hk : s.m.m_store.m_keys.lookup u with
        | none =>
            rw [hk] at hu
            simpa using hu
        | some k => rfl
    · simp only [withAccount, UnorderedMap.lookup_insert_eq] at hb
      by_cases huc : u = c.uuid
      · rw [if_pos huc] at hb
        cases hb
        exact m_data_ne_nil c.secret
      · rw [if_neg huc] at hb
        exact h.cached u b hb
  exact hstored.of_eq rfl rfl

/-- Entering a key that the store gives up caches it. -/
theorem storeSync_enteredAgain {u : H128} {password : Bytes} {s : Opened} (h : StoreSync s) :
    StoreSync (enteredAgain P u password s) := by
  have hentered : StoreSync (entered P u password s) := by
    refine ⟨fun v => (encryptedKey_unlocked P _ u password v).trans (h.keys v), fun v b hb => ?_⟩
    rcases lookup_cached_unlocked P s.m.m_store u password v with heq | ⟨-, -, hne, heq⟩
    · exact h.cached v b (heq.symm.trans hb)
    · rw [show (entered P u password s).m.m_store = unlocked P s.m.m_store u password from rfl,
        heq] at hb
      cases hb
      exact hne
  exact hentered.of_eq (notedAgain_m_store P _ _ _ _ _) rfl

/-- The wallet's store, opened or not, is in step with the disk. -/
def WalletSync (w : Wallet) : Prop := ∀ o, StoreSync (opened o w)

/-- A new key manager has read its directory. -/
theorem storeSync_new (o : Order) (host : Host) :
    StoreSync { m := KeyManager.new o host, host := host } := by
  refine ⟨fun u => ?_, fun u b hb => ?_⟩
  · rw [new_m_store]
    rfl
  · rw [new_m_store] at hb
    cases hb

/-- **Each step** keeps memory and disk in step. -/
theorem walletSync_step {w : Wallet} {a : Action} (h : WalletSync w) :
    WalletSync (Wallet.step P w a) := by
  have hcold : SameSession w (Wallet.step P w a) → WalletSync (Wallet.step P w a) := by
    intro hsame o
    rcases hsame.manager with heq | ⟨o', hnone, heq⟩
    · cases hm : (Wallet.step P w a).m_keyManager with
      | none =>
          unfold opened manager
          rw [hm]
          exact storeSync_new o _
      | some m =>
          have hw := h o
          unfold opened at hw ⊢
          rw [manager_of_some hm]
          rw [manager_of_some (heq.symm.trans hm)] at hw
          exact hw.of_eq rfl hsame.accountDir
    · unfold opened
      rw [manager_of_some heq]
      exact (storeSync_new o' w.host).of_eq rfl hsame.accountDir
  cases a with
  | restart => exact fun o => storeSync_new o w.host
  | createAccount o name password d =>
      have himported : ∀ c, StoreSync (afterWrite P o (imported P c (opened o w))) :=
        fun c => storeSync_afterWrite P (storeSync_imported P (h o))
      rcases createAccount_ends P o name password d w with
        ⟨e, hk, hw⟩ | ⟨k, c, hk, hc, hcan, hw⟩ | ⟨k, c, hk, hc, hcan, hexists, hw⟩ |
          ⟨k, c, hk, hc, hcan, hexists, hw⟩
      · rw [hw]
        exact fun _ => h o
      · rw [hw]
        exact fun _ => himported c
      · rw [hw]
        exact fun _ => himported c
      · rw [hw]
        exact fun _ => storeSync_afterWriteKey P ((himported c).of_eq rfl rfl)
  | login o password =>
      rcases login_leaves P o password w with ⟨hnone, hw⟩ | ⟨u, hu, hcan, hw⟩ | ⟨u, hu, hcan, hw⟩
      · rw [hw]
        exact fun _ => h o
      · rw [hw]
        exact fun _ => storeSync_afterWrite P (storeSync_enteredAgain P (h o))
      · rw [hw]
        exact fun _ => storeSync_load P (storeSync_afterWrite P (storeSync_enteredAgain P (h o)))
  | logout o =>
      have hforgotten : ∀ m, w.m_keyManager = some m →
          StoreSync (afterWrite P o (forgotten w m)) := by
        intro m hm
        have hw := h o
        rw [opened, manager_of_some hm] at hw
        exact storeSync_afterWrite P ⟨hw.keys, fun u b hb => by cases hb⟩
      rcases logout_ends P o w with ⟨hm, hw⟩ | ⟨m, hm, hcan, hw⟩ | ⟨m, hm, hcan, hw⟩
      · rw [hw]
        exact h
      · rw [hw]
        exact fun _ => hforgotten m hm
      · rw [hw]
        exact fun _ => hforgotten m hm
  | generateAddress o d => exact hcold (sameSession_cold P trivial)
  | loadAddresses o uuids => exact hcold (sameSession_cold P trivial)
  | getAddresses o uuids => exact hcold (sameSession_cold P trivial)

/-- In every run the store is that of the directory. -/
theorem walletSync_run (as : List Action) : WalletSync (Wallet.run P as) := by
  have hstart : WalletSync {} := fun o => storeSync_new o {}
  exact EveryStep.invariant (G := fun _ _ _ => True) (I := fun _ w => WalletSync w) hstart
    (fun _ _ hI _ => walletSync_step P hI) fun _ _ _ _ => trivial

/-! ## Which keys the store gives up -/

/-- A key that decrypts under a password is given up for it, cached or not. -/
theorem unlock_ne_nil_of_decrypt {s : Opened} (h : StoreSync s) {u : H128} {k : EncryptedKey}
    {pass : Bytes} (hk : s.host.accountDir.lookup u = some k)
    (hopens : SecretStore.decrypt P k.encryptedKey pass ≠ []) :
    u ∈ s.m.m_store.m_keys ∧ unlock P s.m.m_store u pass ≠ [] := by
  have hu := h.keys u
  rw [hk, Option.map_some] at hu
  obtain ⟨k', hk', heq⟩ := Option.map_eq_some_iff.mp hu
  refine ⟨AList.lookup_isSome.mp (by rw [hk']; rfl), ?_⟩
  unfold unlock
  cases hb : s.m.m_store.m_cached.lookup u with
  | some b => exact h.cached u b hb
  | none =>
      simp only [hk', heq]
      exact hopens

/-- When the store gives up nothing for a password, no key file decrypts under it. -/
theorem not_opens_of_firstUnlocked {o : Order} {s : Opened} (h : StoreSync s) {pass : Bytes}
    (hnone : firstUnlocked P o s.m pass = none) :
    ∀ u k, s.host.accountDir.lookup u = some k →
      SecretStore.decrypt P k.encryptedKey pass = [] := by
  intro u k hk
  by_contra hopens
  obtain ⟨hmem, hne⟩ := unlock_ne_nil_of_decrypt P h hk hopens
  obtain ⟨k', hk'⟩ := Option.isSome_iff_exists.mp (AList.lookup_isSome.mpr hmem)
  have hkeys : u ∈ s.m.m_store.keys o :=
    List.mem_map.mpr ⟨(u, k'), (Order.mem_iterate o).mpr hk', rfl⟩
  have hfalse := List.find?_eq_none.mp hnone u hkeys
  simp only [ne_eq, decide_not, Bool.not_eq_true', decide_eq_false_iff_not, not_not] at hfalse
  exact hne hfalse

end TronWallet.Analysis
