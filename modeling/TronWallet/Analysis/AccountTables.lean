import TronWallet.Analysis.Stores

/-!
# Whose key an address stands for

Every table of the wallet that mentions an account can be checked against the accounts
created in the run: a key file is the one made when its account was created, a cached
secret is the secret of the account with that identifier, an address looked up leads to
the account that has it.  `TablesOk` says so of the store, of the lookup table, of the
directory of key files and of the keys file.  It is kept by every member of the key
manager; `load` keeps it because what it reads was written from tables that were in
order, or is not read at all (`load_leaves`).
-/

set_option autoImplicit false

namespace TronWallet.Analysis

open TronWallet.Lib TronWallet.Model

variable (P : Platform)

/-! ## Accounts and the keys file -/

/-- No two accounts share an identifier or an address, and no address is zero. -/
structure DistinctAccounts (L : List Account) : Prop where
  nonzero : ∀ c ∈ L, c.address P ≠ ZeroAddress
  uuid : ∀ c ∈ L, ∀ c' ∈ L, c.uuid = c'.uuid → c = c'
  address : ∀ c ∈ L, ∀ c' ∈ L, c.address P = c'.address P → c = c'

/-- An identifier and an address are those of one account. -/
def Belongs (L : List Account) (u : H128) (a : Address) : Prop :=
  ∃ c ∈ L, c.uuid = u ∧ c.address P = a

/-- The keys file, if there is one, is the encryption, on record, of contents all of whose
entries satisfy a condition. -/
def FileOk (Q : Address × H128 × KeyInfo → Prop) (host : Host) : Prop :=
  host.keys = [] ∨ ∃ key, ∃ f : KeysFile, f.encode.length ≤ vectorMaxSize ∧
    ⟨.keysFile, key, 0, f.encode⟩ ∈ host.ctrCalls ∧
      host.keys = P.encryptSymNoAuth key 0 f.encode ∧ ∀ i ∈ f.infos, Q i

/-- The keys file is of version 1 only under the key of an encryption that made it. -/
def KeysFileReadsOwn (pass : Bytes) (host : Host) : Prop :=
  ∀ c ∈ host.ctrCalls, c.site = .keysFile → host.keys = P.encryptSymNoAuth c.key c.iv c.plain →
    c.key = KeyManager.fileKey P pass host.salt ∨
      versionOf (P.decryptSymNoAuth (KeyManager.fileKey P pass host.salt) 0 host.keys) ≠ .ok 1

/-- What `load` leaves: the keys file was not there, was not of version 1, or gave back the
contents it was made of. -/
inductive LoadLeaves (Q : Address × H128 × KeyInfo → Prop) (pass : Bytes) (s s' : Opened) :
    Prop where
  | noFile (hkeys : s.host.keys = []) (hs : s' = s)
  | unread (hs : s' = withFileKey (KeyManager.fileKey P pass s.host.salt) s ∨
      s' = afterContents P (KeyManager.fileKey P pass s.host.salt) pass
        (withFileKey (KeyManager.fileKey P pass s.host.salt) s))
  | read (f : KeysFile) (hQ : ∀ i ∈ f.infos, Q i)
      (hs : s' = loaded P f (KeyManager.fileKey P pass s.host.salt) pass s)

/-- What a load leaves, of a keys file that reads as its own. -/
theorem load_leaves {Q : Address × H128 × KeyInfo → Prop} {pass : Bytes} {s : Opened}
    (hfile : FileOk P Q s.host) (hreads : KeysFileReadsOwn P pass s.host) :
    LoadLeaves P Q pass s (Exec.finalState (KeyManager.load P pass) s) := by
  rcases hfile with hnil | ⟨key, f, hsize, hcall, hkeys, hQ⟩
  · exact .noFile hnil (by rw [finalState_load, if_pos hnil])
  · rcases hreads _ hcall rfl hkeys with hkey | hversion
    · refine .read f hQ ?_
      exact Exec.finalState_of_ok (load_of_encode P hsize (by rw [← hkey]; exact hkeys))
    · have hne : s.host.keys ≠ [] := by
        rw [hkeys, Ne, Platform.encryptSymNoAuth_eq_nil]
        exact (readsAs_list_of_le hsize).ne_nil
      refine .unread ?_
      rw [finalState_load, if_neg hne]
      exact loadText_of_version_ne P hversion _

/-! ## The tables -/

/-- The tables, the files and the store speak about accounts of the list; `N` is what the
entries of the keys file satisfy besides. -/
structure TablesOk (L : List Account) (N : Address → KeyInfo → Prop) (s : Opened) : Prop where
  keys : ∀ u k, s.m.m_store.m_keys.lookup u = some k → ∃ c ∈ L, c.uuid = u ∧ k = c.stored P
  dir : ∀ u k, s.host.accountDir.lookup u = some k → ∃ c ∈ L, c.uuid = u ∧ k = c.stored P
  cached : ∀ u b, s.m.m_store.m_cached.lookup u = some b →
    ∃ c ∈ L, c.uuid = u ∧ b = c.secret.m_data
  addr : ∀ a u, s.m.m_addrLookup.lookup a = some u → Belongs P L u a
  file : FileOk P (fun i => (i.2.1 = 0 ∨ Belongs P L i.2.1 i.1) ∧ N i.1 i.2.2) s.host

/-- A pair of one of the accounts is one of more accounts. -/
theorem Belongs.mono {L L' : List Account} (hL : ∀ c ∈ L, c ∈ L') {u : H128} {a : Address}
    (h : Belongs P L u a) : Belongs P L' u a := by
  obtain ⟨c, hc, hrest⟩ := h
  exact ⟨c, hL c hc, hrest⟩

/-- What holds of the entries of a file may be weakened. -/
theorem FileOk.mono {Q Q' : Address × H128 × KeyInfo → Prop} {host : Host} (hQ : ∀ i, Q i → Q' i)
    (h : FileOk P Q host) : FileOk P Q' host := by
  refine h.imp id ?_
  rintro ⟨key, f, hsize, hcall, hkeys, hinfos⟩
  exact ⟨key, f, hsize, hcall, hkeys, fun i hi => hQ i (hinfos i hi)⟩

/-- The same file with more encryptions on record. -/
theorem FileOk.of_eq {Q : Address × H128 × KeyInfo → Prop} {host host' : Host}
    (h : FileOk P Q host) (hkeys : host'.keys = host.keys)
    (hcalls : ∀ c ∈ host.ctrCalls, c.site = .keysFile → c ∈ host'.ctrCalls) :
    FileOk P Q host' := by
  rcases h with hnil | ⟨key, f, hsize, hcall, hfile, hinfos⟩
  · exact Or.inl (hkeys.trans hnil)
  · exact Or.inr ⟨key, f, hsize, hcalls _ hcall rfl, hkeys.trans hfile, hinfos⟩

/-- The file written from tables whose entries satisfy the condition. -/
theorem fileOk_afterWriteKey {Q : Address × H128 × KeyInfo → Prop} {o : Order} {key : H128}
    {s : Opened} (h : FileOk P Q s.host)
    (hQ : ∀ a info, s.m.m_keyInfo.lookup a = some info → Q (a, s.m.uuid a, info)) :
    FileOk P Q (afterWriteKey P o key s).host := by
  rcases afterWriteKey_host P o key s with ⟨e, htext, hsame⟩ | ⟨text, htext, hnew⟩
  · rw [hsame]
    exact h
  · obtain ⟨heq, hsize⟩ := fileText_eq htext
    rw [heq] at hsize hnew
    rw [hnew]
    refine Or.inr ⟨key, contentsOf o s.m, hsize, List.mem_cons_self, rfl, fun i hi => ?_⟩
    obtain ⟨⟨a, info⟩, hmem, rfl⟩ := List.mem_map.mp hi
    exact hQ a info ((Order.mem_iterate o).mp hmem)

section Tables

variable {L : List Account} {N : Address → KeyInfo → Prop}

/-- There may be more accounts, and more names for them. -/
theorem TablesOk.mono {L' : List Account} {N' : Address → KeyInfo → Prop}
    (hL : ∀ c ∈ L, c ∈ L') (hN : ∀ a info, N a info → N' a info) {s : Opened}
    (h : TablesOk P L N s) : TablesOk P L' N' s := by
  refine ⟨fun u k hk => ?_, fun u k hk => ?_, fun u b hb => ?_,
    fun a u hu => (h.addr a u hu).mono P hL,
    h.file.mono P fun i hi => ⟨hi.1.imp id ?_, hN _ _ hi.2⟩⟩
  · obtain ⟨c, hc, hrest⟩ := h.keys u k hk
    exact ⟨c, hL c hc, hrest⟩
  · obtain ⟨c, hc, hrest⟩ := h.dir u k hk
    exact ⟨c, hL c hc, hrest⟩
  · obtain ⟨c, hc, hrest⟩ := h.cached u b hb
    exact ⟨c, hL c hc, hrest⟩
  · exact Belongs.mono P hL

/-- The same store, lookup table and files. -/
theorem TablesOk.of_eq {s s' : Opened} (h : TablesOk P L N s)
    (hstore : s'.m.m_store = s.m.m_store) (haddr : s'.m.m_addrLookup = s.m.m_addrLookup)
    (hdir : s'.host.accountDir = s.host.accountDir) (hkeys : s'.host.keys = s.host.keys)
    (hcalls : ∀ c ∈ s.host.ctrCalls, c.site = .keysFile → c ∈ s'.host.ctrCalls) :
    TablesOk P L N s' := by
  refine ⟨?_, ?_, ?_, ?_, h.file.of_eq P hkeys hcalls⟩
  · rw [hstore]
    exact h.keys
  · rw [hdir]
    exact h.dir
  · rw [hstore]
    exact h.cached
  · rw [haddr]
    exact h.addr

/-- Writing the store back. -/
theorem TablesOk.save {s : Opened} (h : TablesOk P L N s) :
    TablesOk P L N { s with host := s.m.m_store.save s.host } := by
  refine ⟨h.keys, fun u k hk => ?_, h.cached, h.addr, h.file.of_eq P rfl fun _ hc _ => hc⟩
  simp only [SecretStore.save, UnorderedMap.lookup_insertAll_pairs] at hk
  rcases Option.or_eq_some_iff.mp hk with hk | ⟨-, hk⟩
  · exact h.keys u k hk
  · exact h.dir u k hk

/-- A key manager just opened. -/
theorem tablesOk_new {o : Order} {host : Host}
    (hdir : ∀ u k, host.accountDir.lookup u = some k → ∃ c ∈ L, c.uuid = u ∧ k = c.stored P)
    (hfile : FileOk P (fun i => (i.2.1 = 0 ∨ Belongs P L i.2.1 i.1) ∧ N i.1 i.2.2) host) :
    TablesOk P L N { m := KeyManager.new o host, host := host } := by
  refine ⟨?_, hdir, ?_, ?_, hfile⟩
  · rw [new_m_store]
    exact hdir
  · rw [new_m_store]
    exact fun u b hb => by cases hb
  · have hfold : ∀ (l : List (H128 × EncryptedKey)) (m : KeyManager),
        (∀ e ∈ l, host.accountDir.lookup e.1 = some e.2) →
        (∀ a u, m.m_addrLookup.lookup a = some u → Belongs P L u a) →
        ∀ a u, (l.foldl (fun m e => m.noteLookup e.1 e.2.address) m).m_addrLookup.lookup a =
          some u → Belongs P L u a := by
      intro l
      induction l with
      | nil => exact fun m _ hm => hm
      | cons e l ih =>
          intro m hl hm
          refine ih _ (fun e he => hl e (List.mem_cons_of_mem _ he)) fun a u hu => ?_
          simp only [KeyManager.noteLookup, UnorderedMap.lookup_insert_eq] at hu
          by_cases ha : a = e.2.address
          · rw [if_pos ha] at hu
            cases hu
            obtain ⟨c, hc, huuid, hstored⟩ := hdir _ _ (hl e List.mem_cons_self)
            exact ⟨c, hc, huuid, by rw [ha, hstored]; rfl⟩
          · rw [if_neg ha] at hu
            exact hm a u hu
    exact hfold _ _ (fun e he => (Order.mem_iterate o).mp he) fun a u hu => by cases hu

/-- The file written from tables that are in order. -/
theorem tablesOk_afterWriteKey {o : Order} {key : H128} {s : Opened} (h : TablesOk P L N s)
    (hinfo : ∀ a info, s.m.m_keyInfo.lookup a = some info → N a info) :
    TablesOk P L N (afterWriteKey P o key s) := by
  have htables := sameTables_afterWriteKey P o key s
  refine ⟨?_, ?_, ?_, ?_, fileOk_afterWriteKey P h.file fun a info hmem => ⟨?_, hinfo a info hmem⟩⟩
  · rw [htables.store]
    exact h.keys
  · rw [afterWriteKey_accountDir]
    exact h.dir
  · rw [htables.store]
    exact h.cached
  · rw [htables.addrLookup]
    exact h.addr
  · -- The identifier written is the one the lookup table has, or zero.
    unfold KeyManager.uuid
    cases hu : s.m.m_addrLookup.lookup a with
    | none => exact Or.inl rfl
    | some u => exact Or.inr (h.addr a u hu)

/-- Writing the keys file keeps the tables in order, if the names that are written are right. -/
theorem tablesOk_afterWrite {o : Order} {s : Opened} (h : TablesOk P L N s)
    (hinfo : s.m.m_keysFileKey ≠ 0 → ∀ a info, s.m.m_keyInfo.lookup a = some info → N a info) :
    TablesOk P L N (afterWrite P o s) := by
  unfold afterWrite
  split
  · exact h
  next hkey => exact tablesOk_afterWriteKey P h (hinfo hkey)

/-- Importing an account of the list. -/
theorem tablesOk_imported {c : Account} {s : Opened} (hc : c ∈ L) (h : TablesOk P L N s) :
    TablesOk P L N (imported P c s) := by
  have hkeys : ∀ u k, (withAccount P c s.m.m_store).m_keys.lookup u = some k →
      ∃ c ∈ L, c.uuid = u ∧ k = c.stored P := by
    intro u k hk
    simp only [withAccount, UnorderedMap.lookup_insert_eq] at hk
    by_cases hu : u = c.uuid
    · rw [if_pos hu] at hk
      cases hk
      exact ⟨c, hc, hu.symm, rfl⟩
    · rw [if_neg hu] at hk
      exact h.keys u k hk
  refine ⟨hkeys, fun u k hk => ?_, fun u b hb => ?_, fun a u hu => ?_,
    h.file.of_eq P rfl fun _ hx _ => List.mem_cons_of_mem _ hx⟩
  · rw [show (imported P c s).host.accountDir =
      UnorderedMap.insertAll s.host.accountDir (withAccount P c s.m.m_store).m_keys.pairs from rfl,
      UnorderedMap.lookup_insertAll_pairs] at hk
    rcases Option.or_eq_some_iff.mp hk with hk | ⟨-, hk⟩
    · exact hkeys u k hk
    · exact h.dir u k hk
  · rw [show (imported P c s).m.m_store.m_cached =
      s.m.m_store.m_cached.insert c.uuid c.secret.m_data from rfl,
      UnorderedMap.lookup_insert_eq] at hb
    by_cases hu : u = c.uuid
    · rw [if_pos hu] at hb
      cases hb
      exact ⟨c, hc, hu.symm, rfl⟩
    · rw [if_neg hu] at hb
      exact h.cached u b hb
  · rw [show (imported P c s).m.m_addrLookup = s.m.m_addrLookup.insert (c.address P) c.uuid
      from rfl, UnorderedMap.lookup_insert_eq] at hu
    by_cases ha : a = c.address P
    · rw [if_pos ha] at hu
      cases hu
      exact ⟨c, hc, rfl, ha.symm⟩
    · rw [if_neg ha] at hu
      exact h.addr a u hu

variable (hL : DistinctAccounts P L)

include hL

/-- No address is missing in the store. -/
theorem TablesOk.noteAddress_eq {s : Opened} (h : TablesOk P L N s) (u : H128) (a : Address) :
    s.m.m_store.noteAddress u a = (false, s.m.m_store) := by
  unfold SecretStore.noteAddress
  cases hk : s.m.m_store.m_keys.lookup u with
  | none => rfl
  | some k =>
      obtain ⟨c, hc, -, rfl⟩ := h.keys u k hk
      exact if_neg (hL.nonzero c hc)

/-- Reading an entry of the keys file. -/
theorem tablesOk_noteInfo {x : Opened × Bool} {i : Address × H128 × KeyInfo}
    (hi : i.2.1 = 0 ∨ Belongs P L i.2.1 i.1) (h : TablesOk P L N x.1) :
    TablesOk P L N (noteInfo x i).1 := by
  unfold noteInfo
  split
  · exact h
  · by_cases hzero : i.2.1 = 0
    · simp only [hzero, ne_eq, not_true_eq_false, if_false]
      exact h.of_eq P rfl rfl rfl rfl fun _ hc _ => hc
    · simp only [ne_eq, hzero, not_false_eq_true, if_true]
      rw [show (x.1.m.noteLookup i.2.1 i.1).m_store = x.1.m.m_store from rfl,
        h.noteAddress_eq P hL]
      refine ⟨h.keys, h.dir, h.cached, fun a u hu => ?_, h.file⟩
      rw [show (x.1.m.noteLookup i.2.1 i.1).m_addrLookup = x.1.m.m_addrLookup.insert i.1 i.2.1
        from rfl, UnorderedMap.lookup_insert_eq] at hu
      by_cases ha : a = i.1
      · rw [if_pos ha] at hu
        cases hu
        rw [ha]
        exact hi.resolve_left hzero
      · rw [if_neg ha] at hu
        exact h.addr a u hu

/-- Reading the contents of the keys file. -/
theorem tablesOk_loaded {f : KeysFile} {key : H128} {pass : Bytes} {s : Opened}
    (hf : ∀ i ∈ f.infos, i.2.1 = 0 ∨ Belongs P L i.2.1 i.1) (h : TablesOk P L N s) :
    TablesOk P L N (loaded P f key pass s) :=
  loaded_keeps P (fun _ i hi hx => tablesOk_noteInfo P hL (hf i hi) hx) (fun _ hs => hs.save P)
    (fun _ _ hm hs => hs.of_eq P hm.store hm.addrLookup rfl rfl fun _ hc _ => hc) h

/-- **Loading the keys file** keeps the tables in order. -/
theorem tablesOk_load {pass : Bytes} {s : Opened} (h : TablesOk P L N s)
    (hreads : KeysFileReadsOwn P pass s.host) :
    TablesOk P L N (Exec.finalState (KeyManager.load P pass) s) := by
  rcases load_leaves P h.file hreads with ⟨hkeys, hs⟩ | ⟨hs | hs⟩ | ⟨f, hQ, hs⟩
  · rw [hs]
    exact h
  · rw [hs]
    exact h.of_eq P rfl rfl rfl rfl fun _ hc _ => hc
  · rw [hs]
    exact h.of_eq P rfl rfl rfl rfl fun _ hc _ => hc
  · rw [hs]
    exact tablesOk_loaded P hL (fun i hi => (hQ i hi).1) h

end Tables

/-! ## Unlocking -/

section Unlock

variable {L : List Account} {N : Address → KeyInfo → Prop} {s : Opened} {u : H128}
  {password : Bytes}

/-- **What the store gives up is the secret of the account**, if the authentication code of
a key file is right for its own password only. -/
theorem unlock_eq_secret (h : TablesOk P L N s)
    (hmac : ∀ c ∈ L, password ≠ c.password → SecretStore.decrypt P (c.crypto P) password = [])
    (hne : unlock P s.m.m_store u password ≠ []) :
    ∃ c ∈ L, c.uuid = u ∧ unlock P s.m.m_store u password = c.secret.m_data := by
  unfold unlock at hne ⊢
  cases hb : s.m.m_store.m_cached.lookup u with
  | some b => exact h.cached u b hb
  | none =>
      rw [hb] at hne
      cases hk : s.m.m_store.m_keys.lookup u with
      | none =>
          rw [hk] at hne
          exact (hne rfl).elim
      | some k =>
          rw [hk] at hne
          obtain ⟨c, hc, huuid, rfl⟩ := h.keys u k hk
          refine ⟨c, hc, huuid, ?_⟩
          by_cases hp : password = c.password
          · rw [hp]
            exact decrypt_own P c
          · exact (hne (hmac c hc hp)).elim

/-- The key that a password opens first is the secret of an account. -/
theorem firstUnlocked_eq_secret {o : Order} (h : TablesOk P L N s)
    (hmac : ∀ c ∈ L, password ≠ c.password → SecretStore.decrypt P (c.crypto P) password = [])
    (hu : firstUnlocked P o s.m password = some u) :
    ∃ c ∈ L, c.uuid = u ∧ unlock P s.m.m_store u password = c.secret.m_data :=
  unlock_eq_secret P h hmac (by simpa using List.find?_some hu)

/-- The address of an account is that of its secret. -/
theorem addressOf_secret (c : Account) : addressOf P c.secret.m_data = c.address P := by
  unfold addressOf
  rw [FixedHash.ofBytes_m_data]
  rfl

/-- Entering the key of an account. -/
theorem tablesOk_enteredAgain {c : Account} (hL : DistinctAccounts P L) (hc : c ∈ L)
    (huuid : c.uuid = u) (hunlock : unlock P s.m.m_store u password = c.secret.m_data)
    (h : TablesOk P L N s) : TablesOk P L N (enteredAgain P u password s) := by
  have hstore : (enteredAgain P u password s).m.m_store = unlocked P s.m.m_store u password :=
    notedAgain_m_store P _ _ _ _ _
  have hkeys : (unlocked P s.m.m_store u password).m_keys = s.m.m_store.m_keys := by
    unfold unlocked
    split
    · rfl
    · have hcached : TablesOk P L N { s with m := { s.m with m_store := { s.m.m_store with
          m_cached := s.m.m_store.m_cached.insert u (unlock P s.m.m_store u password) } } } := by
        refine ⟨h.keys, h.dir, fun v b hb => ?_, h.addr, h.file⟩
        rw [UnorderedMap.lookup_insert_eq] at hb
        by_cases hv : v = u
        · rw [if_pos hv, hunlock] at hb
          cases hb
          exact ⟨c, hc, huuid.trans hv.symm, rfl⟩
        · rw [if_neg hv] at hb
          exact h.cached v b hb
      exact congrArg (fun r => r.2.m_keys) (hcached.noteAddress_eq P hL u _)
  refine ⟨?_, h.dir, fun v b hb => ?_, fun a v hv => ?_, h.file⟩
  · rw [hstore, hkeys]
    exact h.keys
  · rw [hstore] at hb
    rcases lookup_cached_unlocked P s.m.m_store u password v with heq | ⟨rfl, -, -, heq⟩
    · exact h.cached v b (heq.symm.trans hb)
    · rw [heq, hunlock] at hb
      cases hb
      exact ⟨c, hc, huuid, rfl⟩
  · unfold enteredAgain at hv
    rw [notedAgain_m_addrLookup, UnorderedMap.lookup_insert_eq, hunlock] at hv
    by_cases ha : a = (P.keyPair (FixedHash.ofBytes c.secret.m_data)).m_address
    · rw [if_pos ha] at hv
      cases hv
      exact ⟨c, hc, huuid, by rw [ha]; exact (addressOf_secret P c).symm⟩
    · rw [if_neg ha] at hv
      exact h.addr a v hv

end Unlock

/-! ## The account logged in -/

/-- The key manager finds the account by its address, and holds its secret. -/
structure Held (c : Account) (m : KeyManager) : Prop where
  addr : m.m_addrLookup.lookup (c.address P) = some c.uuid
  cached : m.m_store.m_cached.lookup c.uuid = some c.secret.m_data

section Held

variable {L : List Account} {N : Address → KeyInfo → Prop} {c : Account} {s : Opened}

/-- Whether a key is held depends on the tables only. -/
theorem Held.of_sameTables {m m' : KeyManager} (h : Held P c m) (hsame : SameTables m m') :
    Held P c m' :=
  ⟨by rw [hsame.addrLookup]; exact h.addr, by rw [hsame.store]; exact h.cached⟩

/-- An account that has just been imported is held. -/
theorem held_imported_self : Held P c (imported P c s).m :=
  ⟨by
    rw [show (imported P c s).m.m_addrLookup = s.m.m_addrLookup.insert (c.address P) c.uuid
      from rfl, UnorderedMap.lookup_insert_eq, if_pos rfl],
    by
    rw [show (imported P c s).m.m_store.m_cached =
      s.m.m_store.m_cached.insert c.uuid c.secret.m_data from rfl,
      UnorderedMap.lookup_insert_eq, if_pos rfl]⟩

/-- Another account that is imported has another address and another identifier. -/
theorem Held.imported {c' : Account} (hL : DistinctAccounts P L) (hc : c ∈ L) (hc' : c' ∈ L)
    (h : Held P c s.m) : Held P c (imported P c' s).m := by
  by_cases heq : c = c'
  · subst heq
    exact held_imported_self P
  · refine ⟨?_, ?_⟩
    · rw [show (Analysis.imported P c' s).m.m_addrLookup =
        s.m.m_addrLookup.insert (c'.address P) c'.uuid from rfl, UnorderedMap.lookup_insert_eq,
        if_neg fun ha => heq (hL.address c hc c' hc' ha)]
      exact h.addr
    · rw [show (Analysis.imported P c' s).m.m_store.m_cached =
        s.m.m_store.m_cached.insert c'.uuid c'.secret.m_data from rfl,
        UnorderedMap.lookup_insert_eq, if_neg fun hu => heq (hL.uuid c hc c' hc' hu)]
      exact h.cached

section Entered

variable {u : H128} {password : Bytes} {c' : Account} (huuid : c'.uuid = u)
  (hunlock : unlock P s.m.m_store u password = c'.secret.m_data)

include huuid hunlock

/-- An account that has just been entered again is held. -/
theorem held_enteredAgain_self : Held P c' (enteredAgain P u password s).m := by
  have hne : unlock P s.m.m_store u password ≠ [] := by
    rw [hunlock]
    exact m_data_ne_nil _
  refine ⟨?_, ?_⟩
  · unfold enteredAgain
    rw [notedAgain_m_addrLookup, UnorderedMap.lookup_insert_eq, hunlock, huuid]
    exact if_pos (addressOf_secret P c').symm
  · rw [show (enteredAgain P u password s).m.m_store = unlocked P s.m.m_store u password from
      notedAgain_m_store P _ _ _ _ _, huuid, unlocked_m_cached P hne, hunlock]

/-- Another account that is entered has another address and another identifier. -/
theorem Held.enteredAgain (hL : DistinctAccounts P L) (hc : c ∈ L) (hc' : c' ∈ L)
    (h : Held P c s.m) : Held P c (enteredAgain P u password s).m := by
  by_cases heq : c = c'
  · subst heq
    exact held_enteredAgain_self P huuid hunlock
  · refine ⟨?_, ?_⟩
    · unfold Analysis.enteredAgain
      rw [notedAgain_m_addrLookup, UnorderedMap.lookup_insert_eq, hunlock, if_neg]
      · exact h.addr
      · intro ha
        exact heq (hL.address c hc c' hc' (ha.trans (addressOf_secret P c')))
    · rw [show (Analysis.enteredAgain P u password s).m.m_store =
        unlocked P s.m.m_store u password from notedAgain_m_store P _ _ _ _ _]
      rcases lookup_cached_unlocked P s.m.m_store u password c.uuid with hsame | ⟨-, hnone, -, -⟩
      · rw [hsame]
        exact h.cached
      · rw [h.cached] at hnone
        cases hnone

end Entered

/-- Loading the keys file finds the account under its own identifier. -/
theorem Held.load {pass : Bytes} (hL : DistinctAccounts P L) (hc : c ∈ L) (h : Held P c s.m)
    (htables : TablesOk P L N s) (hreads : KeysFileReadsOwn P pass s.host) :
    Held P c (Exec.finalState (KeyManager.load P pass) s).m := by
  have hafter := tablesOk_load P hL htables hreads
  refine ⟨?_, by rw [(load_frame P pass s).cached]; exact h.cached⟩
  have hsome : ((Exec.finalState (KeyManager.load P pass) s).m.m_addrLookup.lookup
      (c.address P)).isSome := by
    rcases load_leaves P htables.file hreads with ⟨hkeys, hs⟩ | ⟨hs | hs⟩ | ⟨f, hQ, hs⟩
    · rw [hs, h.addr]
      rfl
    · rw [hs]
      exact Option.isSome_iff_exists.mpr ⟨_, h.addr⟩
    · rw [hs]
      exact Option.isSome_iff_exists.mpr ⟨_, h.addr⟩
    · rw [hs, (loaded_tables P f _ pass s).1]
      exact noteInfos_addrLookup_isSome (Option.isSome_iff_exists.mpr ⟨_, h.addr⟩)
  -- Whatever identifier the address has now is that of an account with the address.
  obtain ⟨u, hu⟩ := Option.isSome_iff_exists.mp hsome
  obtain ⟨c', hc', huuid, haddr⟩ := hafter.addr _ _ hu
  rw [hu, ← huuid, hL.address c' hc' c hc haddr]

end Held

end TronWallet.Analysis
