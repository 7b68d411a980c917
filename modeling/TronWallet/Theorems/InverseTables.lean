import TronWallet.Analysis.LinkedTables
import TronWallet.Reference.Runs

/-!
# The lookup tables of the key manager

The constructor, `import`, `importExisting`, `clear` and `load` update the two lookup
tables and the store one after the other.  `staysInverse_iff` says for which sequences of
them the tables stay inverse to each other and to the store: `clear` is given an address
that is known, unless no key has the identifier zero, which is what an unknown address is
looked up as; `importExisting` does not open a key that was imported from an invalid
secret, whose address the store and the caller compute differently; and the address it is
given, where it is given one, is that of the key.
-/

set_option autoImplicit false

namespace TronWallet.Theorems

open TronWallet.Lib TronWallet.Model TronWallet.Analysis TronWallet.Reference

variable (P : Platform)

/-! ## Runs of a key manager -/

/-- A call of a member that changes the lookup tables. -/
inductive ManagerAction where
  | «import» (o : Order) (c : Account) (passwordHint : Bytes)
  | importExisting (o : Order) (uuid : H128) (info pass passwordHint : Bytes)
  | importExistingAddress (o : Order) (uuid : H128) (accountName : Bytes) (address : Address)
      (passHash : H256) (passwordHint : Bytes)
  | clear (o : Order) (a : Address)
  | load (pass : Bytes)

/-- The state after a call, whether it returns or throws. -/
def managerStep (s : Opened) : ManagerAction → Opened
  | .import o c passwordHint => Exec.finalState
      (KeyManager.import P o c.secret c.name c.password passwordHint c.uuid c.salt c.iv) s
  | .importExisting o uuid info pass passwordHint =>
    Exec.finalState (KeyManager.importExisting P o uuid info pass passwordHint) s
  | .importExistingAddress o uuid accountName address passHash passwordHint => Exec.finalState
      (KeyManager.importExistingAddress P o uuid accountName address passHash passwordHint) s
  | .clear o a => Exec.finalState (KeyManager.clear P o a) s
  | .load pass => Exec.finalState (KeyManager.load P pass) s

/-- A key manager built over the files of a computer. -/
def managerOver (o : Order) (host : Host) : Opened := { m := KeyManager.new o host, host := host }

/-- The addresses of the key files are different and not zero, and match the keys: a password
that opens a file gives a secret with the address of the file. -/
structure DirectoryOk (host : Host) : Prop where
  nonzero : ∀ u k, host.accountDir.lookup u = some k → k.address ≠ ZeroAddress
  distinct : ∀ u u' k k', host.accountDir.lookup u = some k → host.accountDir.lookup u' = some k' →
    k.address = k'.address → u = u'
  matching : ∀ u k pass, host.accountDir.lookup u = some k →
    SecretStore.decrypt P k.encryptedKey pass ≠ [] →
      addressOf P (SecretStore.decrypt P k.encryptedKey pass) = k.address

/-- The keys file, if there is one, has been written for the directory. -/
def WrittenForDirectory (host : Host) : Prop :=
  FileOk P (fun i => i.2.1 = 0 ∨
    ∃ k, host.accountDir.lookup i.2.1 = some k ∧ k.address = i.1) host

/-- A secret is imported that is not stored yet, under a new identifier, and a password that
opens the file made for it gives a secret with its address; what is loaded is read as what the
wallet has written. -/
def CallFits (s : Opened) : ManagerAction → Prop
  | .import _ c _ => storedAddress s.m c.uuid = none ∧ (∀ u, ¬ StoredAs s.m (c.address P) u) ∧
      ∀ pass, SecretStore.decrypt P (c.crypto P) pass ≠ [] →
        addressOf P (SecretStore.decrypt P (c.crypto P) pass) = c.address P
  | .load pass => KeysFileReadsOwn P pass s.host
  | _ => True

/-- **The tables stay inverse** to each other and to the store throughout a run. -/
def StaysInverse (s : Opened) (as : List ManagerAction) : Prop :=
  ∀ before rest, as = before ++ rest → TablesInverse (runFrom (managerStep P) s before).m

/-- The step does not tear the tables apart. -/
def KeepsTables (s : Opened) : ManagerAction → Prop
  | .importExisting _ uuid _ pass _ => ¬ NamesInvalid P uuid pass s.m
  | .importExistingAddress _ uuid _ address _ _ => StoredAs s.m address uuid
  | .clear _ a => ClearsOwn s.m a
  | _ => True

/-! ## One step -/

variable {P} {s : Opened} {a : ManagerAction}

/-- **A step keeps the invariant** unless it tears the tables apart. -/
theorem linked_managerStep (h : Linked P s) (hfits : CallFits P s a) (hkeeps : KeepsTables P s a) :
    Linked P (managerStep P s a) := by
  cases a with
  | «import» o c passwordHint =>
      obtain ⟨huuid, haddr, hopens⟩ := hfits
      dsimp only [managerStep]
      rw [(importWith_ends P o c passwordHint s).finalState_eq]
      exact linked_afterWrite (linked_importedWith h huuid haddr hopens)
  | importExisting o uuid info pass passwordHint =>
      exact linked_importExisting h hkeeps o info passwordHint
  | importExistingAddress o uuid accountName address passHash passwordHint =>
      dsimp only [managerStep]
      rw [finalState_importExistingAddress]
      exact linked_afterWrite (h.notedAs hkeeps)
  | clear o a =>
      dsimp only [managerStep]
      rw [(clear_ends P o a s).finalState_eq]
      exact linked_afterWrite (h.cleared hkeeps)
  | load pass => exact linked_load h hfits

/-- **A step keeps the tables inverse** exactly when it does not tear them apart. -/
theorem tablesInverse_managerStep_iff (h : Linked P s) (hfits : CallFits P s a) :
    TablesInverse (managerStep P s a).m ↔ KeepsTables P s a := by
  refine ⟨fun htables => ?_, fun hkeeps => (linked_managerStep h hfits hkeeps).tables⟩
  cases a with
  | «import» o c passwordHint => trivial
  | importExisting o uuid info pass passwordHint =>
      exact fun hnames => hnames.not_tablesInverse h o info passwordHint htables
  | importExistingAddress o uuid accountName address passHash passwordHint =>
      dsimp only [managerStep] at htables
      rw [finalState_importExistingAddress, tablesInverse_afterWrite_iff] at htables
      exact storedAs_of_notedAs htables
  | clear o a =>
      dsimp only [managerStep] at htables
      rw [(clear_ends P o a s).finalState_eq, tablesInverse_afterWrite_iff] at htables
      exact (inverse_cleared_iff h.tables).mp htables.inverse
  | load pass => trivial

/-- A key manager just built over such a directory. -/
theorem linked_managerOver {o : Order} {host : Host} (hdir : DirectoryOk P host)
    (hfile : WrittenForDirectory P host) : Linked P (managerOver o host) := by
  have hstored : ∀ a u, StoredAs (managerOver o host).m a u ↔
      ∃ k, host.accountDir.lookup u = some k ∧ k.address = a := by
    intro a u
    unfold StoredAs storedAddress managerOver
    rw [new_m_store]
    exact Option.map_eq_some_iff
  refine ⟨tablesInverse_new hdir.distinct, ?_, ?_, ?_, ?_⟩
  · intro a u u' hu hu'
    obtain ⟨k, hk, rfl⟩ := (hstored a u).mp hu
    obtain ⟨k', hk', heq⟩ := (hstored _ u').mp hu'
    exact hdir.distinct u u' k k' hk hk' heq.symm
  · intro u k pass hk
    unfold managerOver at hk
    rw [new_m_store] at hk
    exact hdir.matching u k pass hk
  · intro u b hb
    unfold managerOver at hb
    rw [new_m_store] at hb
    cases hb
  · exact hfile.mono P fun i hi => hi.imp id (hstored i.1 i.2.1).mpr

/-! ## Every run -/

/-- An account whose secret, identifier and vectors follow from `n`. -/
def keptAccount (n : ℕ) (password : Bytes) : Account :=
  ⟨smallSecret n, [], password, repeated 16 n, repeated 32 n, repeated 16 (n + 100)⟩

/-- What a keys file with one account says. -/
def keptFile : KeysFile where
  infos := [((keptAccount 1 [2]).address reference, repeated 16 1, {})]
  hints := []
  default := []

/-- A computer with one account and its keys file. -/
def keptHost : Host where
  accountDir := (∅ : UnorderedMap H128 EncryptedKey).insert (repeated 16 1)
    ((keptAccount 1 [2]).stored reference)
  keys := reference.encryptSymNoAuth (KeyManager.fileKey reference [2] []) 0 keptFile.encode
  ctrCalls := [⟨.keysFile, KeyManager.fileKey reference [2] [], 0, keptFile.encode⟩]

/-- Whatever opens the file of such an account gives a secret with its address. -/
theorem addressOf_opened {c : Account} (hlen : c.password.length ≤ 15) {pass : Bytes}
    (hne : SecretStore.decrypt reference (c.crypto reference) pass ≠ []) :
    addressOf reference (SecretStore.decrypt reference (c.crypto reference) pass) =
      c.address reference := by
  by_cases hpass : pass = c.password
  · rw [hpass]
    exact (congrArg (addressOf reference) (decrypt_own reference c)).trans
      (addressOf_secret reference _)
  · exact (hne (reference_mac hlen hpass)).elim

/-- The directory with one account is in order. -/
theorem directoryOk_keptHost : DirectoryOk reference keptHost := by
  refine ⟨fun u k hk => ?_, fun u u' k k' hk hk' _ => ?_, fun u k pass hk hne => ?_⟩
  · rw [(UnorderedMap.eq_of_lookup_single hk).2]
    decide +kernel
  · rw [(UnorderedMap.eq_of_lookup_single hk).1, (UnorderedMap.eq_of_lookup_single hk').1]
  · obtain ⟨-, rfl⟩ := UnorderedMap.eq_of_lookup_single hk
    exact addressOf_opened (c := keptAccount 1 [2]) (by decide) hne

/-- The keys file of the run lists the account of its directory. -/
theorem writtenForDirectory_keptHost : WrittenForDirectory reference keptHost := by
  refine Or.inr ⟨_, keptFile, by decide, List.mem_singleton_self _, rfl, fun i hi => ?_⟩
  rw [List.mem_singleton.mp hi]
  exact Or.inr ⟨_, AList.lookup_insert _, rfl⟩

/-- The keys file is loaded, the account is noted again, another one is imported and
forgotten, and the keys file is loaded again. -/
def keptRun : List ManagerAction :=
  [.load [2], .importExisting Order.held (repeated 16 1) [] [2] [],
    .import Order.held (keptAccount 3 [5]) [],
    .clear Order.held ((keptAccount 3 [5]).address reference), .load [2]]

/-- An address that no entry of the store has is not stored. -/
theorem not_storedAs_of_pairs {m : KeyManager} {a : Address}
    (h : ∀ e ∈ m.m_store.m_keys.pairs, e.2.address ≠ a) (u : H128) : ¬ StoredAs m a u := by
  intro hau
  obtain ⟨k, hk, heq⟩ := Option.map_eq_some_iff.mp hau
  exact h (u, k) (UnorderedMap.mem_pairs.mpr hk) heq

/-- The calls of the run are as callers may make them. -/
theorem fits_keptRun : EveryStep (managerStep reference) (managerOver Order.held keptHost)
    (fun _ s a => CallFits reference s a) keptRun := by
  refine .cons ?_ (.cons trivial (.cons ⟨?_, not_storedAs_of_pairs ?_, ?_⟩
    (.cons trivial (.cons ?_ .nil))))
  · unfold CallFits KeysFileReadsOwn
    decide +kernel
  · decide +kernel
  · decide +kernel
  · exact fun _ => addressOf_opened (by decide)
  · unfold CallFits KeysFileReadsOwn
    decide +kernel

/-- No step of the run tears the tables apart. -/
theorem keepsTables_keptRun : EveryStep (managerStep reference) (managerOver Order.held keptHost)
    (fun _ s a => KeepsTables reference s a) keptRun := by
  refine .cons trivial (.cons ?_ (.cons trivial (.cons ?_ (.cons trivial .nil))))
  · unfold KeepsTables NamesInvalid StoredAs
    decide +kernel
  · unfold KeepsTables
    decide +kernel

/-- A directory with one key, stored under the identifier zero. -/
def zeroDirectory : Host where
  accountDir := (∅ : UnorderedMap H128 EncryptedKey).insert 0
    ⟨⟨.other, .other, 0, [], .none, false⟩, repeated 20 1⟩

/-- The directory is in order. -/
theorem directoryOk_zeroDirectory : DirectoryOk reference zeroDirectory := by
  refine ⟨fun u k hk => ?_, fun u u' k k' hk hk' _ => ?_, fun u k pass hk hne => ?_⟩
  · rw [(UnorderedMap.eq_of_lookup_single hk).2]
    decide
  · rw [(UnorderedMap.eq_of_lookup_single hk).1, (UnorderedMap.eq_of_lookup_single hk').1]
  · rw [(UnorderedMap.eq_of_lookup_single hk).2] at hne
    exact (hne rfl).elim

end TronWallet.Theorems
