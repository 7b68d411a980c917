import TronWallet.Analysis.Stores
import TronWallet.Reference.Runs

/-!
# Loading undoes writing

Writing the keys file under a password and loading it with that password into a key
manager that has just been opened restores the tables the file is made of.  Nothing is
assumed of the names, the hints or the default password but that a vector can hold the
text made of them, and then the write returns (`fileText_of_size`).  Every account has to
be in the store of the directory, since `load` passes over the others.
-/

set_option autoImplicit false

namespace TronWallet.Theorems

open TronWallet.Lib TronWallet.Model TronWallet.Analysis

variable (P : Platform)

/-- A key manager just opened over a directory. -/
def reopened (o : Order) (host : Host) : Opened := { m := KeyManager.new o host, host := host }

/-- Two key managers agree on what the keys file holds. -/
structure SameContents (m m' : KeyManager) : Prop where
  keyInfo : ∀ a, m'.m_keyInfo.lookup a = m.m_keyInfo.lookup a
  /-- The identifiers of the addresses with information. -/
  addrLookup : ∀ a ∈ m.m_keyInfo, m'.m_addrLookup.lookup a = m.m_addrLookup.lookup a
  passwordHint : ∀ h, m'.m_passwordHint.lookup h = m.m_passwordHint.lookup h
  default : m'.m_defaultPasswordDeprecated = m.m_defaultPasswordDeprecated

/-- Every address with information has an identifier, not zero, of a key that is in the store
of the directory. -/
def EntriesStored (s : Opened) : Prop :=
  ∀ a ∈ s.m.m_keyInfo, s.m.uuid a ≠ 0 ∧ (SecretStore.load s.host).contains (s.m.uuid a) = true

instance (s : Opened) : Decidable (EntriesStored s) :=
  decidable_of_iff (∀ e ∈ UnorderedMap.pairs s.m.m_keyInfo, s.m.uuid e.1 ≠ 0 ∧
      (SecretStore.load s.host).contains (s.m.uuid e.1) = true) <| by
    refine ⟨fun h a ha => ?_, fun h e he => ?_⟩
    · obtain ⟨info, hlookup⟩ := Option.isSome_iff_exists.mp (AList.lookup_isSome.mpr ha)
      exact h (a, info) (UnorderedMap.mem_pairs.mpr hlookup)
    · exact h e.1 (AList.lookup_isSome.mp (by rw [UnorderedMap.mem_pairs.mp he]; rfl))

/-! ## Writing under a password -/

/-- The state in which the keys file is written under a password and a salt. -/
def underPassword (pass : Bytes) (salt : H256) (s : Opened) : Opened :=
  let m := s.m.cachePassword P pass
  { m := { m with m_master := m.hashPassword P pass },
    host := { s.host with salt := salt.m_data } }

/-- The write returns when a vector can hold the text, and leaves the file under the key of
the password. -/
theorem writePassword_ok {o : Order} (pass : Bytes) (salt : H256) {s : Opened}
    (hsize : (contentsOf o s.m).encode.length ≤ vectorMaxSize) :
    ∃ s', KeyManager.writePassword P o pass salt s = .ok () s' ∧
      s'.host.keys = P.encryptSymNoAuth (KeyManager.fileKey P pass s'.host.salt) 0
        (contentsOf o s.m).encode ∧ s'.host.accountDir = s.host.accountDir := by
  have htext : (underPassword P pass salt s).m.fileText o = .ok (contentsOf o s.m).encode :=
    fileText_of_size (m := (underPassword P pass salt s).m) hsize
  have hmaster : (underPassword P pass salt s).m.m_cachedPasswords.lookup
      (underPassword P pass salt s).m.m_master = some pass := AList.lookup_insert _
  have hcan : CanWriteKey o (underPassword P pass salt s).m := ⟨⟨_, htext⟩, _, hmaster⟩
  have hrun : KeyManager.writePassword P o pass salt s =
      KeyManager.writeKey P o (KeyManager.fileKey P pass salt.m_data)
        (underPassword P pass salt s) := rfl
  rcases writeKey_ends P o (KeyManager.fileKey P pass salt.m_data) (underPassword P pass salt s)
    with ⟨-, u, h⟩ | ⟨hnot, -⟩
  · refine ⟨_, hrun.trans h, ?_, afterWriteKey_accountDir P o _ _⟩
    rcases afterWriteKey_host P o (KeyManager.fileKey P pass salt.m_data)
      (underPassword P pass salt s) with ⟨e, herror, -⟩ | ⟨text, htext', hnew⟩
    · rw [htext] at herror
      cases herror
    · rw [htext] at htext'
      cases htext'
      rw [hnew]
      rfl
  · exact (hnot hcan).elim

/-! ## Reading the accounts back -/

/-- Accounts that are all in the store are all noted. -/
theorem foldl_noteInfo_stored (infos : List (Address × H128 × KeyInfo)) {x : Opened × Bool}
    (h : ∀ i ∈ infos, i.2.1 ≠ 0 ∧ x.1.m.m_store.contains i.2.1 = true) :
    (infos.foldl noteInfo x).1.m.m_keyInfo =
        UnorderedMap.insertAll x.1.m.m_keyInfo (infos.map fun i => (i.1, i.2.2)) ∧
      (infos.foldl noteInfo x).1.m.m_addrLookup =
        UnorderedMap.insertAll x.1.m.m_addrLookup (infos.map fun i => (i.1, i.2.1)) := by
  induction infos generalizing x with
  | nil => exact ⟨rfl, rfl⟩
  | cons i infos ih =>
      obtain ⟨hzero, hstored⟩ := h i List.mem_cons_self
      have hnote : (noteInfo x i).1.m.m_keyInfo = x.1.m.m_keyInfo.insert i.1 i.2.2 ∧
          (noteInfo x i).1.m.m_addrLookup = x.1.m.m_addrLookup.insert i.1 i.2.1 := by
        unfold noteInfo
        simp [hzero, hstored, KeyManager.noteLookup]
      have hrest := ih (x := noteInfo x i) fun j hj =>
        ⟨(h j (List.mem_cons_of_mem _ hj)).1,
          noteInfo_contains x i _ (h j (List.mem_cons_of_mem _ hj)).2⟩
      rw [List.foldl_cons, hrest.1, hrest.2, hnote.1, hnote.2]
      exact ⟨rfl, rfl⟩

/-- The hints that are read are assigned one after the other. -/
theorem foldl_noteLoadedHint_eq (hints : List (H256 × Bytes)) (s : Opened) :
    (hints.foldl noteLoadedHint s).m.m_passwordHint =
      UnorderedMap.insertAll s.m.m_passwordHint hints := by
  induction hints generalizing s with
  | nil => rfl
  | cons i hints ih => exact ih (noteLoadedHint s i)

/-- Noting an account leaves the hints. -/
theorem noteInfo_passwordHint (x : Opened × Bool) (i : Address × H128 × KeyInfo) :
    (noteInfo x i).1.m.m_passwordHint = x.1.m.m_passwordHint := by
  unfold noteInfo
  split
  · rfl
  · dsimp only
    split <;> rfl

/-- Noting all accounts leaves the hints. -/
theorem noteInfos_passwordHint (infos : List (Address × H128 × KeyInfo)) (s : Opened) :
    (noteInfos s infos).m.m_passwordHint = s.m.m_passwordHint := by
  have hfold : ∀ (l : List (Address × H128 × KeyInfo)) (x : Opened × Bool),
      (l.foldl noteInfo x).1.m.m_passwordHint = x.1.m.m_passwordHint := by
    intro l
    induction l with
    | nil => exact fun _ => rfl
    | cons i l ih => exact fun x => (ih (noteInfo x i)).trans (noteInfo_passwordHint x i)
  have hx := hfold infos (s, false)
  unfold noteInfos
  dsimp only
  split <;> exact hx

/-- **What has been loaded is what was written.** -/
theorem sameContents_loaded {o : Order} {m : KeyManager} {key : H128} {pass : Bytes} {t : Opened}
    (hinfo : t.m.m_keyInfo = ∅) (hhint : t.m.m_passwordHint = ∅)
    (hstored : ∀ a ∈ m.m_keyInfo, m.uuid a ≠ 0 ∧ t.m.m_store.contains (m.uuid a) = true) :
    SameContents m (loaded P (contentsOf o m) key pass t).m := by
  have hmem : ∀ i ∈ (contentsOf o m).infos, ∃ info, m.m_keyInfo.lookup i.1 = some info ∧
      i = (i.1, m.uuid i.1, info) := by
    intro i hi
    obtain ⟨⟨a, info⟩, hentry, rfl⟩ := List.mem_map.mp hi
    exact ⟨info, o.mem_iterate.mp hentry, rfl⟩
  obtain ⟨hkeyInfo, haddr⟩ := foldl_noteInfo_stored (contentsOf o m).infos
    (x := (withFileKey key t, false)) (by
      intro i hi
      obtain ⟨info, hlookup, heq⟩ := hmem i hi
      rw [heq]
      exact hstored i.1 (AList.lookup_isSome.mp (by rw [hlookup]; rfl)))
  obtain ⟨htables₁, htables₂⟩ := loaded_tables P (contentsOf o m) key pass t
  refine ⟨fun a => ?_, fun a ha => ?_, fun h => ?_, rfl⟩
  · rw [htables₂, hkeyInfo, show (withFileKey key t).m.m_keyInfo = ∅ from hinfo,
      show ((contentsOf o m).infos.map fun i => (i.1, i.2.2)) = o.iterate m.m_keyInfo by
        simp [contentsOf, List.map_map, Function.comp_def]]
    exact o.lookup_insertAll_iterate m.m_keyInfo a
  · obtain ⟨info, hlookup⟩ := Option.isSome_iff_exists.mp (AList.lookup_isSome.mpr ha)
    have huuid : m.m_addrLookup.lookup a = some (m.uuid a) := by
      have hzero := (hstored a ha).1
      unfold KeyManager.uuid at hzero ⊢
      cases hu : m.m_addrLookup.lookup a with
      | none =>
          rw [hu] at hzero
          exact (hzero rfl).elim
      | some u => rfl
    rw [htables₁, haddr, huuid]
    refine UnorderedMap.lookup_insertAll_of_mem _ ?_ ?_
    · simpa [contentsOf, List.map_map, Function.comp_def] using o.iterate_keys_nodup m.m_keyInfo
    · exact List.mem_map.mpr ⟨(a, m.uuid a, info),
        List.mem_map.mpr ⟨(a, info), o.mem_iterate.mpr hlookup, rfl⟩, rfl⟩
  · have hhints : (loaded P (contentsOf o m) key pass t).m.m_passwordHint =
        UnorderedMap.insertAll ∅ (o.iterate m.m_passwordHint) := by
      show ((contentsOf o m).hints.foldl noteLoadedHint
        (noteInfos (withFileKey key t) (contentsOf o m).infos)).m.m_passwordHint = _
      rw [foldl_noteLoadedHint_eq, noteInfos_passwordHint]
      exact congrArg (fun x => UnorderedMap.insertAll x (o.iterate m.m_passwordHint)) hhint
    rw [hhints]
    exact o.lookup_insertAll_iterate m.m_passwordHint h

/-! ## The round trip -/

/-- **Loading undoes writing**: the write returns, loading with its password into a key
manager just opened returns `true`, and the contents are the same. -/
theorem load_undoes_write (o o' : Order) (pass : Bytes) (salt : H256) (s : Opened)
    (hstored : EntriesStored s) (hsize : (contentsOf o s.m).encode.length ≤ vectorMaxSize) :
    ∃ s', KeyManager.writePassword P o pass salt s = .ok () s' ∧
      ∃ t, KeyManager.load P pass (reopened o' s'.host) = .ok true t ∧ SameContents s.m t.m := by
  obtain ⟨s', hwrite, hkeys, hdir⟩ := writePassword_ok P pass salt hsize
  have hload := load_of_encode P (w := reopened o' s'.host) hsize hkeys
  refine ⟨s', hwrite, _, hload, sameContents_loaded P (new_m_keyInfo o' s'.host) ?_ ?_⟩
  · obtain ⟨_, _, hnew⟩ := new_eq o' s'.host
    rw [show (reopened o' s'.host).m = KeyManager.new o' s'.host from rfl, hnew]
  · intro a ha
    rw [show (reopened o' s'.host).m.m_store = SecretStore.load s'.host from
      new_m_store o' s'.host]
    unfold SecretStore.load
    rw [hdir]
    exact hstored a ha

/-- A key manager with two accounts, one of them without a name. -/
def twoAccounts : Opened := opened Order.held
  (Wallet.run Reference.reference [Reference.create [1] [2] 1, Reference.create [] [3] 3])

/-- A file with two accounts is written and loaded again. -/
theorem load_undoes_write_two :
    ∃ s', KeyManager.writePassword Reference.reference Order.held [7] 0 twoAccounts =
      .ok () s' ∧ ∃ t, KeyManager.load Reference.reference [7] (reopened Order.held s'.host) =
        .ok true t ∧ SameContents twoAccounts.m t.m :=
  load_undoes_write Reference.reference Order.held Order.held [7] 0 twoAccounts
    (by decide +kernel) (by decide +kernel)

end TronWallet.Theorems
