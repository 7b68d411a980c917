import TronWallet.Analysis.AccountRuns

/-!
# The names of accounts

Information is noted for an address in three ways: by the import of an account, under its
name, when the key of an account is entered, under the empty name, and when the keys file
is loaded, under the name the file lists.  `NamesOk` says that every name a key manager
holds is that of the account with the address; loading keeps it when every name in the
file is right (`load_entry`), and makes right the name of an account the file lists
(`load_restores`).
-/

set_option autoImplicit false

namespace TronWallet.Analysis

open TronWallet.Lib TronWallet.Model

variable (P : Platform)

/-! ## Names in memory and in the keys file -/

/-- The information has the name of the account with the address. -/
def Named (L : List Account) (a : Address) (info : KeyInfo) : Prop :=
  ∃ c ∈ L, c.address P = a ∧ info.accountName = c.name

/-- Every name a key manager holds is right. -/
def NamesOk (L : List Account) (m : KeyManager) : Prop :=
  ∀ a info, m.m_keyInfo.lookup a = some info → Named P L a info

/-- A key manager has information for an account, or the account has no name. -/
def NameKnown (c : Account) (m : KeyManager) : Prop :=
  c.name = [] ∨ (m.m_keyInfo.lookup (c.address P)).isSome

section Names

variable {L : List Account} {c : Account}

/-- A name of one of the accounts is one of more accounts. -/
theorem Named.mono {L' : List Account} (hL : ∀ c ∈ L, c ∈ L') {a : Address} {info : KeyInfo}
    (h : Named P L a info) : Named P L' a info := by
  obtain ⟨c, hc, hrest⟩ := h
  exact ⟨c, hL c hc, hrest⟩

/-- The right name of an account that is known is its own. -/
theorem accountName_eq {m : KeyManager} (hL : DistinctAccounts P L) (hc : c ∈ L)
    (h : NamesOk P L m) (hknown : NameKnown P c m) : m.accountName (c.address P) = c.name := by
  unfold KeyManager.accountName
  cases hinfo : m.m_keyInfo.lookup (c.address P) with
  | none =>
      rw [NameKnown, hinfo] at hknown
      simpa using hknown.symm
  | some info =>
      obtain ⟨c', hc', haddr, hname⟩ := h _ _ hinfo
      rw [hL.address c' hc' c hc haddr] at hname
      exact hname

/-- Importing an account notes its name. -/
theorem namesOk_imported {s : Opened} (hc : c ∈ L) (h : NamesOk P L s.m) :
    NamesOk P L (imported P c s).m := by
  intro a info hinfo
  rw [show (imported P c s).m.m_keyInfo = s.m.m_keyInfo.insert (c.address P)
    ⟨s.m.hashPassword P c.password, c.name, []⟩ from rfl, UnorderedMap.lookup_insert_eq] at hinfo
  by_cases ha : a = c.address P
  · rw [if_pos ha] at hinfo
    cases hinfo
    exact ⟨c, hc, ha.symm, rfl⟩
  · rw [if_neg ha] at hinfo
    exact h a info hinfo

/-- Importing an account makes it known. -/
theorem nameKnown_imported {s : Opened} : NameKnown P c (imported P c s).m := by
  refine Or.inr ?_
  rw [show (imported P c s).m.m_keyInfo = s.m.m_keyInfo.insert (c.address P)
    ⟨s.m.hashPassword P c.password, c.name, []⟩ from rfl, AList.lookup_insert]
  rfl

/-- Entering the key of an account replaces its name by the empty one. -/
theorem lookup_enteredAgain {u : H128} (password : Bytes) {s : Opened}
    (hunlock : unlock P s.m.m_store u password = c.secret.m_data) :
    ∃ info : KeyInfo, info.accountName = [] ∧ ∀ a,
      (enteredAgain P u password s).m.m_keyInfo.lookup a =
        if a = c.address P then some info else s.m.m_keyInfo.lookup a := by
  have haddr : (P.keyPair (FixedHash.ofBytes c.secret.m_data)).m_address = c.address P :=
    addressOf_secret P c
  unfold enteredAgain
  rw [hunlock, notedAgain_m_keyInfo, haddr]
  exact ⟨_, rfl, fun a => UnorderedMap.lookup_insert_eq _ _ _ _⟩

/-- For an account without a name that is right. -/
theorem namesOk_enteredAgain {u : H128} {password : Bytes} {s : Opened} (hc : c ∈ L)
    (hunlock : unlock P s.m.m_store u password = c.secret.m_data) (hname : c.name = [])
    (h : NamesOk P L s.m) : NamesOk P L (enteredAgain P u password s).m := by
  obtain ⟨entry, hempty, hlookup⟩ := lookup_enteredAgain P password hunlock
  intro a info hinfo
  rw [hlookup a] at hinfo
  by_cases ha : a = c.address P
  · rw [if_pos ha] at hinfo
    cases hinfo
    exact ⟨c, hc, ha.symm, by rw [hempty, hname]⟩
  · rw [if_neg ha] at hinfo
    exact h a info hinfo

/-- The same information, the same names. -/
theorem NamesOk.of_eq {m m' : KeyManager} (h : NamesOk P L m)
    (hinfo : m'.m_keyInfo = m.m_keyInfo) : NamesOk P L m' := by
  unfold NamesOk
  rw [hinfo]
  exact h

/-- Whether a name is known depends on the table of names only. -/
theorem NameKnown.of_eq {m m' : KeyManager} (h : NameKnown P c m)
    (hinfo : m'.m_keyInfo = m.m_keyInfo) : NameKnown P c m' := by
  unfold NameKnown
  rw [hinfo]
  exact h

/-- Noting information for an address forgets nothing. -/
theorem nameKnown_insert {m m' : KeyManager} {a : Address} {info : KeyInfo}
    (h : NameKnown P c m) (hinfo : m'.m_keyInfo = m.m_keyInfo.insert a info) :
    NameKnown P c m' := by
  refine h.imp id fun hsome => ?_
  rw [hinfo, UnorderedMap.lookup_insert_eq]
  split
  · rfl
  · exact hsome

/-- Logging out leaves fewer names. -/
theorem namesOk_forgotten {w : Wallet} {m : KeyManager} (h : NamesOk P L m) :
    NamesOk P L (forgotten w m).m := by
  intro a info hinfo
  rw [show (forgotten w m).m.m_keyInfo = m.m_keyInfo.erase (toAddress w.Address) from rfl,
    UnorderedMap.lookup_erase_eq] at hinfo
  split at hinfo
  · cases hinfo
  · exact h a info hinfo

end Names

/-! ## What loading does to the names -/

/-- The keys file was written under the key of a password, and lists an address. -/
def ListedUnder (password : Bytes) (a : Address) (host : Host) : Prop :=
  ∃ f : KeysFile, f.encode.length ≤ vectorMaxSize ∧
    host.keys = P.encryptSymNoAuth (KeyManager.fileKey P password host.salt) 0 f.encode ∧
      ∃ i ∈ f.infos, i.1 = a

/-- Once the accounts of a keys file have been noted, an address that the file lists, or
whose information was right before, has right information. -/
theorem right_of_listed {N : Address → KeyInfo → Prop} {infos : List (Address × H128 × KeyInfo)}
    {x : Opened × Bool} {a : Address} (hN : ∀ i ∈ infos, N i.1 i.2.2)
    (hstored : ∀ i ∈ infos, i.1 = a → i.2.1 = 0 ∨ x.1.m.m_store.contains i.2.1 = true)
    (h : (∃ info, x.1.m.m_keyInfo.lookup a = some info ∧ N a info) ∨ ∃ i ∈ infos, i.1 = a) :
    ∃ info, (infos.foldl noteInfo x).1.m.m_keyInfo.lookup a = some info ∧ N a info := by
  induction infos generalizing x with
  | nil => exact h.resolve_right (by simp)
  | cons i infos ih =>
      rw [List.foldl_cons]
      refine ih (fun j hj => hN j (List.mem_cons_of_mem _ hj)) (fun j hj ha => ?_) ?_
      · exact (hstored j (List.mem_cons_of_mem _ hj) ha).imp id (noteInfo_contains x i _)
      · by_cases hi : i.1 = a
        · -- The account just noted has the address.
          left
          have hself := noteInfo_keyInfo_self (hstored i List.mem_cons_self hi)
          rw [hi] at hself
          refine ⟨i.2.2, hself, ?_⟩
          rw [← hi]
          exact hN i List.mem_cons_self
        · rcases h with ⟨info, hinfo, hright⟩ | ⟨j, hj, ha⟩
          · rcases noteInfo_keyInfo x i a with heq | ⟨ha, -⟩
            · exact Or.inl ⟨info, heq.trans hinfo, hright⟩
            · exact (hi ha.symm).elim
          · rcases List.mem_cons.mp hj with rfl | hj
            · exact (hi ha).elim
            · exact Or.inr ⟨j, hj, ha⟩

section Load

variable {L : List Account} {c : Account} {password : Bytes} {s : Opened}

/-- Loading leaves the names as they were, or notes those of the keys file, which was
written under the key of the password. -/
theorem load_keyInfo_cases {Q : Address × H128 × KeyInfo → Prop} (hfile : FileOk P Q s.host)
    (hreads : KeysFileReadsOwn P password s.host) :
    (Exec.finalState (KeyManager.load P password) s).m.m_keyInfo = s.m.m_keyInfo ∨
      ∃ f : KeysFile, f.encode.length ≤ vectorMaxSize ∧ (∀ i ∈ f.infos, Q i) ∧
        s.host.keys = P.encryptSymNoAuth (KeyManager.fileKey P password s.host.salt) 0 f.encode ∧
          (Exec.finalState (KeyManager.load P password) s).m.m_keyInfo = (f.infos.foldl noteInfo
            (withFileKey (KeyManager.fileKey P password s.host.salt) s, false)).1.m.m_keyInfo := by
  rcases hfile with hnil | ⟨key, f, hsize, hcall, hkeys, hQ⟩
  · left
    rw [finalState_load, if_pos hnil]
  · rcases hreads _ hcall rfl hkeys with hkey | hversion
    · have hkeys' : s.host.keys =
          P.encryptSymNoAuth (KeyManager.fileKey P password s.host.salt) 0 f.encode := by
        rw [← hkey]
        exact hkeys
      refine Or.inr ⟨f, hsize, hQ, hkeys', ?_⟩
      rw [Exec.finalState_of_ok (load_of_encode P hsize hkeys')]
      exact (loaded_tables P f _ password s).2
    · left
      have hne : s.host.keys ≠ [] := by
        rw [hkeys, Ne, Platform.encryptSymNoAuth_eq_nil]
        exact (readsAs_list_of_le hsize).ne_nil
      rw [finalState_load, if_neg hne]
      rcases loadText_of_version_ne P hversion _ with hs | hs
      · rw [hs]
        rfl
      · rw [hs]
        rfl

/-- What is noted for an address after loading was noted before, or the file lists it. -/
theorem load_entry {Q : Address × H128 × KeyInfo → Prop} (hfile : FileOk P Q s.host)
    (hreads : KeysFileReadsOwn P password s.host) {a : Address} {info : KeyInfo}
    (hinfo : (Exec.finalState (KeyManager.load P password) s).m.m_keyInfo.lookup a = some info) :
    s.m.m_keyInfo.lookup a = some info ∨ ListedUnder P password a s.host ∧ ∃ u, Q (a, u, info) := by
  rcases load_keyInfo_cases P hfile hreads with hs | ⟨f, hsize, hQ, hkeys, hs⟩
  · rw [hs] at hinfo
    exact Or.inl hinfo
  · rw [hs] at hinfo
    rcases noteInfos_keyInfo hinfo with hold | ⟨u, hmem⟩
    · exact Or.inl hold
    · exact Or.inr ⟨⟨f, hsize, hkeys, _, hmem, rfl⟩, u, hQ _ hmem⟩

/-- Loading notes right names only. -/
theorem load_keyInfo (h : TablesOk P L (Named P L) s) (hreads : KeysFileReadsOwn P password s.host)
    {a : Address} {info : KeyInfo}
    (hinfo : (Exec.finalState (KeyManager.load P password) s).m.m_keyInfo.lookup a = some info) :
    s.m.m_keyInfo.lookup a = some info ∨ Named P L a info := by
  rcases load_entry P h.file hreads hinfo with hold | ⟨-, u, -, hnamed⟩
  · exact Or.inl hold
  · exact Or.inr hnamed

/-- Loading a keys file of the wallet's own keeps the names right. -/
theorem namesOk_load (h : TablesOk P L (Named P L) s) (hreads : KeysFileReadsOwn P password s.host)
    (hnames : NamesOk P L s.m) :
    NamesOk P L (Exec.finalState (KeyManager.load P password) s).m := fun a info hinfo =>
  (load_keyInfo P h hreads hinfo).elim (hnames a info) id

/-- Loading forgets nothing. -/
theorem load_keyInfo_isSome (h : TablesOk P L (Named P L) s)
    (hreads : KeysFileReadsOwn P password s.host) {a : Address}
    (hinfo : (s.m.m_keyInfo.lookup a).isSome) :
    ((Exec.finalState (KeyManager.load P password) s).m.m_keyInfo.lookup a).isSome := by
  rcases load_keyInfo_cases P h.file hreads with hs | ⟨f, -, -, -, hs⟩
  · rw [hs]
    exact hinfo
  · rw [hs]
    exact noteInfos_keyInfo_isSome hinfo

/-- **Loading restores the name** of an account the keys file lists under the key of the
password. -/
theorem load_restores (hL : DistinctAccounts P L) (hc : c ∈ L)
    (h : TablesOk P L (Named P L) s) (hreads : KeysFileReadsOwn P password s.host)
    (hstored : s.m.m_store.contains c.uuid = true)
    (hlisted : ListedUnder P password (c.address P) s.host) :
    ∃ info, (Exec.finalState (KeyManager.load P password) s).m.m_keyInfo.lookup (c.address P) =
      some info ∧ Named P L (c.address P) info := by
  obtain ⟨f', hsize', hkeys', i, hi, haddr⟩ := hlisted
  rcases h.file with hnil | ⟨key, f, hsize, hcall, hkeys, hQ⟩
  · rw [hkeys', Platform.encryptSymNoAuth_eq_nil] at hnil
    exact ((readsAs_list_of_le hsize').ne_nil hnil).elim
  · have hdec : P.decryptSymNoAuth (KeyManager.fileKey P password s.host.salt) 0 s.host.keys =
        f'.encode := by
      rw [hkeys', Platform.decryptSymNoAuth_encryptSymNoAuth]
    -- The text is of version 1, so that the key is the one the file was written under.
    have hkey : key = KeyManager.fileKey P password s.host.salt := by
      refine (hreads _ hcall rfl hkeys).resolve_right fun hversion => hversion ?_
      rw [hdec]
      exact KeysFile.versionOf_encode hsize'
    rw [hkey] at hkeys
    have htext : f'.encode = f.encode := by
      rw [← hdec, hkeys, Platform.decryptSymNoAuth_encryptSymNoAuth]
    obtain ⟨j, hj, haddr'⟩ := KeysFile.listed_of_encode_eq hsize' htext hi
    rw [Exec.finalState_of_ok (load_of_encode P hsize hkeys), (loaded_tables P f _ password s).2]
    refine right_of_listed (fun i hi => (hQ i hi).2) (fun i hi ha => ?_)
      (Or.inr ⟨j, hj, haddr'.trans haddr⟩)
    refine (hQ i hi).1.imp id ?_
    rintro ⟨c', hc', huuid, haddr''⟩
    rw [← huuid, hL.address c' hc' c hc (haddr''.trans ha)]
    exact hstored

end Load

end TronWallet.Analysis
