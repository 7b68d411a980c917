import TronWallet.Analysis.AccountTables
import TronWallet.Lib.InverseMaps

/-!
# The two lookup tables and the store

`m_addrLookup` and `m_uuidLookup` are inverse when every pair noted in them is that of a
stored key and no two keys are stored under one address.  `Linked` says so, together with
what keeps it true: what a key file gives up, in the cache or to a password, is the secret
of its address, and the keys file lists stored keys only.

Each member of the key manager has one lemma that it keeps `Linked`, under a condition
where one is needed.
-/

set_option autoImplicit false

namespace TronWallet.Analysis

open TronWallet.Lib TronWallet.Model

variable (P : Platform)

/-! ## The invariant -/

/-- A key is stored under an address. -/
def StoredAs (m : KeyManager) (a : Address) (u : H128) : Prop := storedAddress m u = some a

/-- **The lookup tables are inverse to each other**, and every identifier noted is that of a
key stored under the address. -/
structure TablesInverse (m : KeyManager) : Prop where
  inverse : Inverse m.m_addrLookup m.m_uuidLookup
  stored : Within (StoredAs m) m.m_addrLookup

/-- An entry of the keys file is that of a stored key, or has no identifier. -/
def Listed (m : KeyManager) (i : Address × H128 × KeyInfo) : Prop :=
  i.2.1 = 0 ∨ StoredAs m i.1 i.2.1

/-- The key manager and the files in agreement. -/
structure Linked (s : Opened) : Prop where
  tables : TablesInverse s.m
  distinct : ∀ a u u', StoredAs s.m a u → StoredAs s.m a u' → u = u'
  opens : ∀ u k pass, s.m.m_store.m_keys.lookup u = some k →
    SecretStore.decrypt P k.encryptedKey pass ≠ [] →
      addressOf P (SecretStore.decrypt P k.encryptedKey pass) = k.address
  cached : ∀ u b, s.m.m_store.m_cached.lookup u = some b → StoredAs s.m (addressOf P b) u
  file : FileOk P (Listed s.m) s.host

/-- Storing is unique both ways. -/
theorem biUnique_storedAs {m : KeyManager}
    (h : ∀ a u u', StoredAs m a u → StoredAs m a u' → u = u') : Relator.BiUnique (StoredAs m) :=
  ⟨fun _ _ _ ha ha' => Option.some.inj (ha.symm.trans ha'), fun _ _ _ hu hu' => h _ _ _ hu hu'⟩

variable {P} {s s' : Opened}

/-- Under which addresses keys are stored depends on the keys only. -/
theorem storedAs_congr {m m' : KeyManager}
    (h : ∀ u, m'.m_store.m_keys.lookup u = m.m_store.m_keys.lookup u) :
    StoredAs m' = StoredAs m := by
  funext a u
  unfold StoredAs storedAddress
  rw [h u]

/-- What may be listed depends on the keys of the store only. -/
theorem listed_congr {m m' : KeyManager}
    (h : ∀ u, m'.m_store.m_keys.lookup u = m.m_store.m_keys.lookup u) : Listed m' = Listed m := by
  unfold Listed
  rw [storedAs_congr h]

/-- The same keys, tables and keys file, as far as lookup can tell, and no other secret in
the cache than those of the keys. -/
theorem Linked.of_keys (h : Linked P s)
    (hkeys : ∀ u, s'.m.m_store.m_keys.lookup u = s.m.m_store.m_keys.lookup u)
    (hcached : ∀ u b, s'.m.m_store.m_cached.lookup u = some b → StoredAs s.m (addressOf P b) u)
    (haddr : s'.m.m_addrLookup = s.m.m_addrLookup) (huuid : s'.m.m_uuidLookup = s.m.m_uuidLookup)
    (hfile : s'.host.keys = s.host.keys)
    (hcalls : ∀ c ∈ s.host.ctrCalls, c.site = .keysFile → c ∈ s'.host.ctrCalls) :
    Linked P s' := by
  have hstored : StoredAs s'.m = StoredAs s.m := storedAs_congr hkeys
  refine ⟨⟨?_, ?_⟩, ?_, ?_, ?_, ?_⟩
  · rw [haddr, huuid]
    exact h.tables.inverse
  · rw [hstored, haddr]
    exact h.tables.stored
  · rw [hstored]
    exact h.distinct
  · intro u k pass hk
    rw [hkeys] at hk
    exact h.opens u k pass hk
  · rw [hstored]
    exact hcached
  · rw [listed_congr hkeys]
    exact h.file.of_eq P hfile hcalls

/-- The same keys, cache, tables and keys file. -/
theorem Linked.of_eq (h : Linked P s)
    (hkeys : ∀ u, s'.m.m_store.m_keys.lookup u = s.m.m_store.m_keys.lookup u)
    (hcached : s'.m.m_store.m_cached = s.m.m_store.m_cached)
    (haddr : s'.m.m_addrLookup = s.m.m_addrLookup) (huuid : s'.m.m_uuidLookup = s.m.m_uuidLookup)
    (hfile : s'.host.keys = s.host.keys)
    (hcalls : ∀ c ∈ s.host.ctrCalls, c.site = .keysFile → c ∈ s'.host.ctrCalls) :
    Linked P s' :=
  h.of_keys hkeys (by rw [hcached]; exact h.cached) haddr huuid hfile hcalls

/-- Noting a stored key keeps the tables inverse. -/
theorem TablesInverse.noteLookup {m : KeyManager} {a : Address} {u : H128}
    (h : TablesInverse m) (hdistinct : ∀ a u u', StoredAs m a u → StoredAs m a u' → u = u')
    (hau : StoredAs m a u) : TablesInverse (m.noteLookup u a) :=
  ⟨h.inverse.insert (biUnique_storedAs hdistinct) h.stored hau, h.stored.insert hau⟩

/-- Noting a pair of the store keeps the invariant. -/
theorem Linked.noteLookup {a : Address} {u : H128} (h : Linked P s) (hau : StoredAs s.m a u) :
    Linked P { s with m := s.m.noteLookup u a } :=
  ⟨h.tables.noteLookup h.distinct hau, h.distinct, h.opens, h.cached, h.file⟩

/-! ## Opening -/

/-- A key manager just opened over a directory of key files with different addresses has
its tables inverse. -/
theorem tablesInverse_new {o : Order} {host : Host}
    (hdistinct : ∀ u u' k k', host.accountDir.lookup u = some k →
      host.accountDir.lookup u' = some k' → k.address = k'.address → u = u') :
    TablesInverse (KeyManager.new o host) := by
  have hstored : ∀ m : KeyManager, m.m_store = SecretStore.load host → ∀ a u,
      StoredAs m a u ↔ ∃ k, host.accountDir.lookup u = some k ∧ k.address = a := by
    intro m hm a u
    unfold StoredAs storedAddress
    rw [hm]
    exact Option.map_eq_some_iff
  have hfold : ∀ (l : List (H128 × EncryptedKey)) (m : KeyManager),
      (∀ e ∈ l, host.accountDir.lookup e.1 = some e.2) → m.m_store = SecretStore.load host →
        TablesInverse m → TablesInverse (l.foldl (fun m e => m.noteLookup e.1 e.2.address) m) := by
    intro l
    induction l with
    | nil => exact fun m _ _ hm => hm
    | cons e l ih =>
        intro m hl hstore hm
        refine ih _ (fun e he => hl e (List.mem_cons_of_mem _ he)) hstore (hm.noteLookup ?_ ?_)
        · intro a u u' hu hu'
          obtain ⟨k, hk, rfl⟩ := (hstored m hstore a u).mp hu
          obtain ⟨k', hk', heq⟩ := (hstored m hstore k.address u').mp hu'
          exact hdistinct u u' k k' hk hk' heq.symm
        · exact (hstored m hstore _ _).mpr ⟨e.2, hl e List.mem_cons_self, rfl⟩
  exact hfold _ _ (fun e he => (Order.mem_iterate o).mp he) rfl ⟨Inverse.empty, Within.empty⟩

/-! ## Writing the keys file -/

/-- What is written lists stored keys only. -/
theorem linked_afterWriteKey {o : Order} {key : H128} (h : Linked P s) :
    Linked P (afterWriteKey P o key s) := by
  have htables := sameTables_afterWriteKey P o key s
  have hrest : Linked P { m := (afterWriteKey P o key s).m, host := s.host } :=
    h.of_eq (fun u => by rw [htables.store]) (by rw [htables.store]) htables.addrLookup
      htables.uuidLookup rfl fun c hc _ => hc
  refine ⟨hrest.tables, hrest.distinct, hrest.opens, hrest.cached, ?_⟩
  have hlisted : Listed (afterWriteKey P o key s).m = Listed s.m :=
    listed_congr fun u => by rw [htables.store]
  rw [hlisted]
  refine fileOk_afterWriteKey P h.file fun a info _ => ?_
  -- The identifier written is the one the lookup table has, or zero.
  unfold Listed KeyManager.uuid
  cases hu : s.m.m_addrLookup.lookup a with
  | none => exact Or.inl rfl
  | some u => exact Or.inr (h.tables.stored a u hu)

/-- Writing the keys file keeps the invariant. -/
theorem linked_afterWrite {o : Order} (h : Linked P s) : Linked P (afterWrite P o s) := by
  unfold afterWrite
  split
  · exact h
  · exact linked_afterWriteKey h

/-- Whether the tables are inverse depends on them and on the store only. -/
theorem TablesInverse.congr {m m' : KeyManager} (h : TablesInverse m)
    (hstore : m'.m_store = m.m_store) (haddr : m'.m_addrLookup = m.m_addrLookup)
    (huuid : m'.m_uuidLookup = m.m_uuidLookup) : TablesInverse m' := by
  refine ⟨?_, ?_⟩
  · rw [haddr, huuid]
    exact h.inverse
  · have hstored : StoredAs m' = StoredAs m := storedAs_congr fun u => by rw [hstore]
    rw [haddr, hstored]
    exact h.stored

/-- Writing the keys file does not touch the tables. -/
theorem tablesInverse_afterWrite_iff {o : Order} :
    TablesInverse (afterWrite P o s).m ↔ TablesInverse s.m := by
  have htables := sameTables_afterWrite P o s
  constructor
  · intro h
    exact h.congr htables.store.symm htables.addrLookup.symm htables.uuidLookup.symm
  · intro h
    exact h.congr htables.store htables.addrLookup htables.uuidLookup

/-! ## Importing -/

/-- Importing a secret under a new identifier and a new address. -/
theorem linked_importedWith {c : Account} {passwordHint : Bytes} (h : Linked P s)
    (huuid : storedAddress s.m c.uuid = none) (haddr : ∀ u, ¬ StoredAs s.m (c.address P) u)
    (hopens : ∀ pass, SecretStore.decrypt P (c.crypto P) pass ≠ [] →
      addressOf P (SecretStore.decrypt P (c.crypto P) pass) = c.address P) :
    Linked P (importedWith P c passwordHint s) := by
  have hkeys : ∀ u, (importedWith P c passwordHint s).m.m_store.m_keys.lookup u =
      if u = c.uuid then some (c.stored P) else s.m.m_store.m_keys.lookup u := fun u =>
    UnorderedMap.lookup_insert_eq _ _ _ _
  have hnew : StoredAs (importedWith P c passwordHint s).m (c.address P) c.uuid := by
    unfold StoredAs storedAddress
    rw [hkeys, if_pos rfl]
    rfl
  have hstored : ∀ a u, StoredAs (importedWith P c passwordHint s).m a u →
      (u = c.uuid ∧ a = c.address P) ∨ StoredAs s.m a u := by
    intro a u hau
    unfold StoredAs storedAddress at hau
    rw [hkeys] at hau
    by_cases hu : u = c.uuid
    · rw [if_pos hu] at hau
      exact Or.inl ⟨hu, (Option.some.inj hau).symm⟩
    · rw [if_neg hu] at hau
      exact Or.inr hau
  have hkept : ∀ a u, StoredAs s.m a u → StoredAs (importedWith P c passwordHint s).m a u := by
    intro a u hau
    have hu : u ≠ c.uuid := by
      rintro rfl
      rw [StoredAs, huuid] at hau
      cases hau
    unfold StoredAs storedAddress
    rw [hkeys, if_neg hu]
    exact hau
  have hdistinct : ∀ a u u', StoredAs (importedWith P c passwordHint s).m a u →
      StoredAs (importedWith P c passwordHint s).m a u' → u = u' := by
    intro a u u' hu hu'
    rcases hstored a u hu with ⟨rfl, rfl⟩ | hu
    · rcases hstored _ u' hu' with ⟨rfl, -⟩ | hu'
      · rfl
      · exact (haddr u' hu').elim
    · rcases hstored a u' hu' with ⟨rfl, rfl⟩ | hu'
      · exact (haddr u hu).elim
      · exact h.distinct a u u' hu hu'
  refine ⟨⟨?_, ?_⟩, hdistinct, fun u k pass hk hne => ?_, fun u b hb => ?_, ?_⟩
  · exact h.tables.inverse.insert (biUnique_storedAs hdistinct) (h.tables.stored.mono hkept) hnew
  · exact (h.tables.stored.mono hkept).insert hnew
  · rw [hkeys] at hk
    by_cases hu : u = c.uuid
    · rw [if_pos hu] at hk
      cases hk
      exact hopens pass hne
    · rw [if_neg hu] at hk
      exact h.opens u k pass hk hne
  · rw [show (importedWith P c passwordHint s).m.m_store.m_cached =
      s.m.m_store.m_cached.insert c.uuid c.secret.m_data from rfl,
      UnorderedMap.lookup_insert_eq] at hb
    by_cases hu : u = c.uuid
    · rw [if_pos hu] at hb
      cases hb
      rw [addressOf_secret, hu]
      exact hnew
    · rw [if_neg hu] at hb
      exact hkept _ u (h.cached u b hb)
  · refine (h.file.mono P fun i hi => ?_).of_eq P rfl fun _ hx _ => List.mem_cons_of_mem _ hx
    exact hi.imp id (hkept _ _)

/-! ## Importing what is stored -/

/-- The state in which `importExistingAddress` writes the keys file. -/
def notedAs (uuid : H128) (accountName : Bytes) (address : Address) (passHash : H256)
    (passwordHint : Bytes) (w : Opened) : Opened :=
  let m := { w.m with
    m_passwordHint := UnorderedMap.emplace w.m.m_passwordHint passHash passwordHint }
  let m := m.noteLookup uuid address
  let info := (m.m_keyInfo.lookup address).getD {}
  let info := { info with passHash := passHash, accountName := accountName }
  { w with m := { m with m_keyInfo := m.m_keyInfo.insert address info } }

variable (P) in
/-- What the overload with an address leaves. -/
theorem finalState_importExistingAddress (o : Order) (uuid : H128) (accountName : Bytes)
    (address : Address) (passHash : H256) (passwordHint : Bytes) (w : Opened) :
    Exec.finalState (KeyManager.importExistingAddress P o uuid accountName address passHash
        passwordHint) w =
      afterWrite P o (notedAs uuid accountName address passHash passwordHint w) :=
  ((write_ends P o (notedAs uuid accountName address passHash passwordHint w)).bind_pure
    fun _ => ()).finalState_eq

variable {uuid : H128} {accountName : Bytes} {address : Address} {passHash : H256}
  {passwordHint : Bytes}

/-- Noting a stored key under its address keeps the invariant. -/
theorem Linked.notedAs (h : Linked P s) (hau : StoredAs s.m address uuid) :
    Linked P (notedAs uuid accountName address passHash passwordHint s) :=
  (h.noteLookup hau).of_eq (fun _ => rfl) rfl rfl rfl rfl fun _ hc _ => hc

/-- The tables stay inverse only when the address noted is that of the key. -/
theorem storedAs_of_notedAs
    (h : TablesInverse (notedAs uuid accountName address passHash passwordHint s).m) :
    StoredAs s.m address uuid :=
  h.stored address uuid (AList.lookup_insert _)

variable {pass : Bytes}

variable (P) in
/-- The state in which `importExisting` notes the address of a key the store gave up. -/
def enteredWith (uuid : H128) (pass : Bytes) (w : Opened) : Opened :=
  let w := entered P uuid pass w
  if w.m.hashPassword P pass ∈ w.m.m_cachedPasswords then w
  else { w with m := w.m.cachePassword P pass }

variable (P) in
/-- Entering with a password enters the key, and may note the password. -/
theorem enteredWith_cases (uuid : H128) (pass : Bytes) (w : Opened) :
    ∃ passwords, enteredWith P uuid pass w = { entered P uuid pass w with m :=
      { (entered P uuid pass w).m with m_cachedPasswords := passwords } } := by
  unfold enteredWith
  dsimp only
  split
  · exact ⟨_, rfl⟩
  · exact ⟨_, rfl⟩

variable (P) in
/-- `importExisting` does nothing when the store gives nothing for the password, and else
notes the address of the secret it gives. -/
theorem finalState_importExisting (o : Order) (uuid : H128) (info pass passwordHint : Bytes)
    (w : Opened) :
    Exec.finalState (KeyManager.importExisting P o uuid info pass passwordHint) w =
      if unlock P w.m.m_store uuid pass = [] then w
      else afterWrite P o (notedAs uuid info (addressOf P (unlock P w.m.m_store uuid pass))
        (w.m.hashPassword P pass) passwordHint (enteredWith P uuid pass w)) := by
  unfold KeyManager.importExisting
  rw [Exec.finalState_get_bind, secret_eq, Exec.finalState_ofExcept_bind]
  dsimp only
  rw [Exec.finalState_set_bind]
  by_cases hnil : unlock P w.m.m_store uuid pass = []
  · rw [if_pos hnil, if_pos hnil, unlocked_of_eq_nil P hnil]
    rfl
  · rw [if_neg hnil, if_neg hnil, Exec.finalState_modify_bind, finalState_importExistingAddress]
    rfl

/-- A key that is not cached and stored without an address gets one when it is given up:
the address that is computed without a test of the secret. -/
def NamesInvalid (P : Platform) (uuid : H128) (pass : Bytes) (m : KeyManager) : Prop :=
  m.m_store.m_cached.lookup uuid = none ∧ StoredAs m ZeroAddress uuid ∧
    unlock P m.m_store uuid pass ≠ [] ∧
    P.secretToAddress (FixedHash.ofBytes (unlock P m.m_store uuid pass)) ≠ ZeroAddress

/-- What the store gives up is the secret of the address the key is stored under. -/
theorem Linked.storedAs_unlock (h : Linked P s) (hne : unlock P s.m.m_store uuid pass ≠ []) :
    StoredAs s.m (addressOf P (unlock P s.m.m_store uuid pass)) uuid := by
  unfold unlock at hne ⊢
  cases hb : s.m.m_store.m_cached.lookup uuid with
  | some b => exact h.cached uuid b hb
  | none =>
      rw [hb] at hne
      cases hk : s.m.m_store.m_keys.lookup uuid with
      | none =>
          rw [hk] at hne
          exact (hne rfl).elim
      | some k =>
          rw [hk] at hne
          unfold StoredAs storedAddress
          rw [hk, Option.map_some]
          exact congrArg some (h.opens uuid k pass hk hne).symm

/-- The keys after one has been given up: one stored without an address may have got one. -/
theorem lookup_unlocked {st : SecretStore} (u : H128)
    (h : st.m_cached.lookup uuid = none → unlock P st uuid pass ≠ [] →
      ∀ k, st.m_keys.lookup uuid = some k → k.address = ZeroAddress →
        P.secretToAddress (FixedHash.ofBytes (unlock P st uuid pass)) = ZeroAddress) :
    (unlocked P st uuid pass).m_keys.lookup u = st.m_keys.lookup u := by
  unfold unlocked
  split
  next => rfl
  next hnew =>
    rw [not_or] at hnew
    rcases lookup_noteAddress
      { st with m_cached := st.m_cached.insert uuid (unlock P st uuid pass) } uuid
      (P.secretToAddress (FixedHash.ofBytes (unlock P st uuid pass))) u with
        heq | ⟨rfl, k, hk, hzero, heq⟩
    · exact heq
    · have hsame := h (AList.lookup_eq_none.mpr hnew.1) hnew.2 k hk hzero
      rw [hsame] at heq
      dsimp only at hk heq ⊢
      rw [hsame, heq, hk, ← hzero]

/-- Entering a key that the store gives up. -/
theorem Linked.entered (h : Linked P s) (hvalid : ¬ NamesInvalid P uuid pass s.m) :
    Linked P (entered P uuid pass s) := by
  have hkeys : ∀ u, (Analysis.entered P uuid pass s).m.m_store.m_keys.lookup u =
      s.m.m_store.m_keys.lookup u := by
    intro u
    refine lookup_unlocked u fun hcached hne k hk hzero => ?_
    by_contra hnonzero
    refine hvalid ⟨hcached, ?_, hne, hnonzero⟩
    unfold StoredAs storedAddress
    rw [hk, Option.map_some, hzero]
  refine h.of_keys hkeys (fun u b hb => ?_) rfl rfl rfl fun _ hc _ => hc
  rcases lookup_cached_unlocked P s.m.m_store uuid pass u with heq | ⟨rfl, -, hne, heq⟩
  · exact h.cached u b (heq.symm.trans hb)
  · have hsome := heq.symm.trans hb
    cases hsome
    exact h.storedAs_unlock hne

/-- Entering a stored key keeps the invariant, unless it names an invalid secret. -/
theorem Linked.enteredWith (h : Linked P s) (hvalid : ¬ NamesInvalid P uuid pass s.m) :
    Linked P (enteredWith P uuid pass s) := by
  obtain ⟨passwords, heq⟩ := enteredWith_cases P uuid pass s
  rw [heq]
  exact (h.entered hvalid).of_eq (fun _ => rfl) rfl rfl rfl rfl fun _ hc _ => hc

/-- **Importing what is stored** keeps the tables in agreement, unless it gives an address to
a key stored without one. -/
theorem linked_importExisting (h : Linked P s) (hvalid : ¬ NamesInvalid P uuid pass s.m)
    (o : Order) (info passwordHint : Bytes) :
    Linked P
      (Exec.finalState (KeyManager.importExisting P o uuid info pass passwordHint) s) := by
  rw [finalState_importExisting]
  by_cases hnil : unlock P s.m.m_store uuid pass = []
  · rw [if_pos hnil]
    exact h
  · rw [if_neg hnil]
    refine linked_afterWrite ((h.enteredWith hvalid).notedAs ?_)
    obtain ⟨passwords, heq⟩ := enteredWith_cases P uuid pass s
    have hentered : unlock P (Analysis.entered P uuid pass s).m.m_store uuid pass ≠ [] →
        StoredAs (Analysis.entered P uuid pass s).m
          (addressOf P (unlock P (Analysis.entered P uuid pass s).m.m_store uuid pass)) uuid :=
      (h.entered hvalid).storedAs_unlock
    have hsame : unlock P (Analysis.entered P uuid pass s).m.m_store uuid pass =
        unlock P s.m.m_store uuid pass := by
      have hcached := unlocked_m_cached P hnil
      rw [unlock, show (Analysis.entered P uuid pass s).m.m_store =
        unlocked P s.m.m_store uuid pass from rfl, hcached]
    rw [hsame] at hentered
    have hstored := hentered hnil
    rw [heq]
    exact hstored

/-- Otherwise the tables say one address and the store the other. -/
theorem NamesInvalid.not_tablesInverse (h : Linked P s) (hnames : NamesInvalid P uuid pass s.m)
    (o : Order) (info passwordHint : Bytes) : ¬ TablesInverse
      (Exec.finalState (KeyManager.importExisting P o uuid info pass passwordHint) s).m := by
  obtain ⟨hcached, hzero, hne, hnonzero⟩ := hnames
  rw [finalState_importExisting, if_neg hne, tablesInverse_afterWrite_iff]
  intro htables
  have hafter := storedAs_of_notedAs htables
  obtain ⟨passwords, heq⟩ := enteredWith_cases P uuid pass s
  rw [heq] at hafter
  have haddr : addressOf P (unlock P s.m.m_store uuid pass) = ZeroAddress :=
    Option.some.inj ((h.storedAs_unlock hne).symm.trans hzero)
  have hnamed : StoredAs (Analysis.entered P uuid pass s).m
      (P.secretToAddress (FixedHash.ofBytes (unlock P s.m.m_store uuid pass))) uuid := by
    obtain ⟨k, hk, hkzero⟩ := Option.map_eq_some_iff.mp hzero
    unfold StoredAs storedAddress
    have hmem : ¬ (uuid ∈ s.m.m_store.m_cached ∨ unlock P s.m.m_store uuid pass = []) := by
      rintro (hmem | hnil)
      · exact AList.lookup_eq_none.mp hcached hmem
      · exact hne hnil
    rw [show (Analysis.entered P uuid pass s).m.m_store = unlocked P s.m.m_store uuid pass from rfl,
      unlocked, if_neg hmem]
    simp [SecretStore.noteAddress, hk, hkzero]
  have hstored : StoredAs (Analysis.entered P uuid pass s).m ZeroAddress uuid := by
    rw [← haddr]
    exact hafter
  exact hnonzero (Option.some.inj (hnamed.symm.trans hstored))

/-! ## Clearing -/

/-- The address is known, or no key has the identifier zero: what is forgotten under the
identifier looked up is the address. -/
def ClearsOwn (m : KeyManager) (a : Address) : Prop :=
  m.m_addrLookup.lookup a ≠ none ∨ m.m_uuidLookup.lookup 0 = none

instance (m : KeyManager) (a : Address) : Decidable (ClearsOwn m a) := by
  unfold ClearsOwn
  infer_instance

/-- **Clearing** keeps the tables inverse exactly when it forgets its own identifier. -/
theorem inverse_cleared_iff {a : Address} (h : TablesInverse s.m) :
    Inverse (cleared a s).m.m_addrLookup (cleared a s).m.m_uuidLookup ↔ ClearsOwn s.m a := by
  have haddr : (cleared a s).m.m_addrLookup = s.m.m_addrLookup.erase a := rfl
  have huuid : (cleared a s).m.m_uuidLookup = s.m.m_uuidLookup.erase (s.m.uuid a) := rfl
  rw [haddr, huuid]
  unfold ClearsOwn KeyManager.uuid
  cases hu : s.m.m_addrLookup.lookup a with
  | none =>
      rw [Option.getD_none, h.inverse.erase_of_none hu]
      simp
  | some u =>
      rw [Option.getD_some]
      exact iff_of_true (h.inverse.erase hu) (Or.inl (by simp))

/-- Clearing an address the tables know keeps the invariant. -/
theorem Linked.cleared {a : Address} (h : Linked P s) (hown : ClearsOwn s.m a) :
    Linked P (cleared a s) := by
  refine ⟨⟨(inverse_cleared_iff h.tables).mpr hown, h.tables.stored.erase⟩, h.distinct, h.opens,
    fun u b hb => ?_, h.file⟩
  cases hb

/-! ## Loading -/

/-- Reading an entry of a stored key. -/
theorem Linked.noteInfo {x : Opened × Bool} {i : Address × H128 × KeyInfo} (h : Linked P x.1)
    (hi : Listed x.1.m i) : Linked P (noteInfo x i).1 := by
  unfold Analysis.noteInfo
  split
  · exact h
  · by_cases hzero : i.2.1 = 0
    · simp only [hzero, ne_eq, not_true_eq_false, if_false]
      exact h.of_eq (fun _ => rfl) rfl rfl rfl rfl fun _ hc _ => hc
    · simp only [ne_eq, hzero, not_false_eq_true, if_true]
      have hau : StoredAs x.1.m i.1 i.2.1 := hi.resolve_left hzero
      refine (h.noteLookup hau).of_eq (fun u => ?_) ?_ rfl rfl rfl fun _ hc _ => hc
      · exact lookup_noteAddress_self hau u
      · exact noteAddress_m_cached _ _ _

/-- Reading an entry keeps what the others are listed for. -/
theorem listed_noteInfo {x : Opened × Bool} {i j : Address × H128 × KeyInfo}
    (hi : Listed x.1.m i) (hj : Listed x.1.m j) : Listed (noteInfo x i).1.m j := by
  have hkeys : ∀ u, (noteInfo x i).1.m.m_store.m_keys.lookup u =
      x.1.m.m_store.m_keys.lookup u := by
    intro u
    unfold noteInfo
    split
    · rfl
    · by_cases hzero : i.2.1 = 0
      · simp only [hzero, ne_eq, not_true_eq_false, if_false]
      · simp only [ne_eq, hzero, not_false_eq_true, if_true]
        exact lookup_noteAddress_self (hi.resolve_left hzero) u
  rw [listed_congr hkeys]
  exact hj

/-- Loading a file of stored accounts keeps the invariant. -/
theorem linked_loaded {f : KeysFile} {key : H128} (h : Linked P s)
    (hf : ∀ i ∈ f.infos, Listed s.m i) : Linked P (loaded P f key pass s) := by
  -- What is listed stays listed while the entries are read.
  refine (loaded_keeps P (I := fun s => Linked P s ∧ ∀ i ∈ f.infos, Listed s.m i)
    (fun x i hi hx => ?_) (fun s' hs => ?_) (fun s' m hm hs => ?_) ⟨h, hf⟩).1
  · exact ⟨hx.1.noteInfo (hx.2 i hi), fun j hj => listed_noteInfo (hx.2 i hi) (hx.2 j hj)⟩
  · exact ⟨hs.1.of_eq (fun _ => rfl) rfl rfl rfl rfl fun _ hc _ => hc, hs.2⟩
  · refine ⟨hs.1.of_eq (fun _ => by rw [hm.store]) (by rw [hm.store]) hm.addrLookup hm.uuidLookup
      rfl fun _ hc _ => hc, fun i hi => ?_⟩
    have hlisted : Listed m = Listed s'.m := listed_congr fun u => by rw [hm.store]
    rw [hlisted]
    exact hs.2 i hi

/-- **Loading** a keys file that lists stored keys keeps the tables in agreement. -/
theorem linked_load (h : Linked P s) (hreads : KeysFileReadsOwn P pass s.host) :
    Linked P (Exec.finalState (KeyManager.load P pass) s) := by
  rcases load_leaves P h.file hreads with ⟨hkeys, hs⟩ | ⟨hs | hs⟩ | ⟨f, hQ, hs⟩
  · rw [hs]
    exact h
  · rw [hs]
    exact h.of_eq (fun _ => rfl) rfl rfl rfl rfl fun _ hc _ => hc
  · rw [hs]
    exact h.of_eq (fun _ => rfl) rfl rfl rfl rfl fun _ hc _ => hc
  · rw [hs]
    exact linked_loaded h hQ

end TronWallet.Analysis
