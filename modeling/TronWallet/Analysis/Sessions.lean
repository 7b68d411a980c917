import TronWallet.Analysis.ColdWallet

/-!
# Sessions and the keys file

What a run does to the keys file, apart from what it holds: the operations on cold
addresses leave the session alone (`sameSession_cold`), a key manager has a key of the
keys file only when there is such a file (`FileBacked`), and the file is created once, by
the `CreateAccount` that finds none (`createsFile`).
-/

set_option autoImplicit false

namespace TronWallet.Analysis

open TronWallet.Lib TronWallet.Model

variable (P : Platform)

/-! ## A key manager just opened -/

/-- Filling the tables from the store touches nothing else. -/
theorem new_eq (o : Order) (host : Host) : ∃ uuidLookup addrLookup,
    KeyManager.new o host = { m_uuidLookup := uuidLookup, m_addrLookup := addrLookup,
                              m_store := SecretStore.load host } := by
  have hfold : ∀ (l : List (H128 × EncryptedKey)) (m : KeyManager), ∃ uuidLookup addrLookup,
      l.foldl (fun m e => m.noteLookup e.1 e.2.address) m =
        { m with m_uuidLookup := uuidLookup, m_addrLookup := addrLookup } := by
    intro l
    induction l with
    | nil => exact fun m => ⟨_, _, rfl⟩
    | cons e l ih => exact fun m => ih (m.noteLookup e.1 e.2.address)
  exact hfold _ _

section New

variable (o : Order) (host : Host)

/-- A new key manager has no key for the keys file. -/
@[simp] theorem new_m_keysFileKey : (KeyManager.new o host).m_keysFileKey = 0 := by
  obtain ⟨_, _, h⟩ := new_eq o host
  rw [h]

/-- A new key manager has no passwords. -/
@[simp] theorem new_m_cachedPasswords : (KeyManager.new o host).m_cachedPasswords = ∅ := by
  obtain ⟨_, _, h⟩ := new_eq o host
  rw [h]

/-- A new key manager knows no names. -/
@[simp] theorem new_m_keyInfo : (KeyManager.new o host).m_keyInfo = ∅ := by
  obtain ⟨_, _, h⟩ := new_eq o host
  rw [h]

/-- A new key manager has the keys of its directory. -/
@[simp] theorem new_m_store : (KeyManager.new o host).m_store = SecretStore.load host := by
  obtain ⟨_, _, h⟩ := new_eq o host
  rw [h]

end New

/-! ## What cold operations leave alone -/

/-- Two wallets in the same session, with the same key files and the same keys file; the key
manager may have been opened. -/
structure SameSession (w w' : Wallet) : Prop where
  manager : w'.m_keyManager = w.m_keyManager ∨
    ∃ o, w.m_keyManager = none ∧ w'.m_keyManager = some (KeyManager.new o w.host)
  address : w'.Address = w.Address
  accountDir : w'.host.accountDir = w.host.accountDir
  salt : w'.host.salt = w.host.salt
  keys : w'.host.keys = w.host.keys
  calls : ∀ c ∈ w.host.ctrCalls, c ∈ w'.host.ctrCalls

/-- A wallet has the session that it has. -/
theorem SameSession.refl (w : Wallet) : SameSession w w :=
  ⟨Or.inl rfl, rfl, rfl, rfl, rfl, fun _ h => h⟩

/-- A change of the cold wallet keeps the session. -/
theorem SameSession.withCold {w w' : Wallet} (h : SameSession w w')
    (lookup cached : UnorderedMap H128 Bytes) (files : UnorderedMap Bytes Bytes)
    (calls : List CtrCall) (hcalls : ∀ c ∈ w'.host.ctrCalls, c ∈ calls) : SameSession w { w' with
      address_lookup_ := lookup, cached_ := cached,
      host := { w'.host with coldWallet := files, ctrCalls := calls } } :=
  ⟨h.manager, h.address, h.accountDir, h.salt, h.keys, fun c hc => hcalls c (h.calls c hc)⟩

/-- Opening the key manager keeps the session. -/
theorem openWallet_keepsSession (o : Order) (w : Wallet) :
    Exec.Keeps (SameSession w) (Wallet.openWallet o) := by
  refine .of_modify fun w' h => ?_
  cases hm : w'.m_keyManager with
  | some m => exact h
  | none =>
      have hnone : w.m_keyManager = none := by
        rcases h.manager with heq | ⟨o', -, heq⟩
        · rw [← heq, hm]
        · rw [hm] at heq
          cases heq
      refine ⟨Or.inr ⟨o, hnone, ?_⟩, h.address, h.accountDir, h.salt, h.keys, h.calls⟩
      unfold KeyManager.new SecretStore.load
      rw [h.accountDir]

/-- A question to the key manager changes nothing. -/
theorem askKeyManager_keeps {α : Type} (I : Wallet → Prop) (f : KeyManager → Except Exn α) :
    Exec.Keeps I (Wallet.askKeyManager f) := by
  refine .get_bind fun w hw => ?_
  cases w.m_keyManager with
  | none => exact hw
  | some m => exact Exec.Keeps.of_ofExcept _ w hw

/-- Generating an address keeps the session. -/
theorem generateAddress_keepsSession (o : Order) (d : GenerateDraws) (w : Wallet) :
    Exec.Keeps (SameSession w) (Wallet.generateAddress P o d) := by
  unfold Wallet.generateAddress
  refine .bind (openWallet_keepsSession o w) fun _ => .ofExcept_bind fun k => .modify_bind
    (fun w' h => h.withCold _ _ _ _ fun _ hc => hc) fun _ => .get_bind fun w' h => ?_
  refine Exec.Keeps.bind (askKeyManager_keeps _ _) (fun ⟨chipper, call⟩ => ?_) w' h
  refine .modify_bind (fun w'' h => ?_) fun _ => ?_
  · cases call with
    | none => exact h
    | some c => exact h.withCold _ _ _ _ fun _ hc => List.mem_cons_of_mem _ hc
  · dsimp only
    split
    · exact fun _ h => h
    · refine .bind (.of_modify fun w'' h => ?_) fun _ => .of_pure _
      split
      · exact h
      · exact h.withCold _ _ _ _ fun _ hc => hc

section Load

variable {I : Wallet → Prop} (hI : ∀ (w : Wallet) (lookup cached : UnorderedMap H128 Bytes), I w →
  I { w with address_lookup_ := lookup, cached_ := cached })

include hI

/-- Loading keeps what does not depend on the two tables. -/
theorem loadAddresses_keeps (o : Order) (uuids : ℕ → H128) :
    Exec.Keeps I (Wallet.loadAddresses P o uuids) := by
  have hnoted : ∀ (root : Dictionary) (w : Wallet), I w →
      I (Wallet.noteAllLoaded uuids 0 root w) := by
    intro root w h
    obtain ⟨hm, hpair, hhost⟩ := noteAllLoaded_frame uuids 0 root w
    have heq : Wallet.noteAllLoaded uuids 0 root w = { w with
        address_lookup_ := (Wallet.noteAllLoaded uuids 0 root w).address_lookup_
        cached_ := (Wallet.noteAllLoaded uuids 0 root w).cached_ } := by
      rw [← hm, ← hpair, ← hhost]
    rw [heq]
    exact hI w _ _ h
  unfold Wallet.loadAddresses
  refine .get_bind fun w h => ?_
  split
  · exact h
  · split
    · exact h
    · refine Exec.Keeps.bind (askKeyManager_keeps _ _) (fun decrypted w' h' => ?_) w h
      split
      · exact hnoted _ w h
      · exact h'

/-- Listing the addresses keeps what its two parts keep. -/
theorem getAddresses_keeps (o : Order) (uuids : ℕ → H128) :
    Exec.Keeps I (Wallet.getAddresses P o uuids) := by
  unfold Wallet.getAddresses
  refine .get_bind fun w h => ?_
  dsimp only
  split
  · exact Exec.Keeps.bind (loadAddresses_keeps P hI o uuids)
      (fun _ => .get_bind fun w' h' => Exec.Keeps.of_pure _ w' h') w h
  · exact h

end Load

/-- **The cold operations leave the session alone.** -/
theorem sameSession_cold {w : Wallet} {a : Action} (h : match a with
    | .generateAddress .. | .loadAddresses .. | .getAddresses .. => True
    | _ => False) : SameSession w (Wallet.step P w a) := by
  cases a with
  | generateAddress o d => exact generateAddress_keepsSession P o d w w (.refl w)
  | loadAddresses o uuids =>
      exact loadAddresses_keeps P (fun w' l c h => h.withCold l c _ _ fun _ hx => hx) o uuids w
        (.refl w)
  | getAddresses o uuids =>
      exact getAddresses_keeps P (fun w' l c h => h.withCold l c _ _ fun _ hx => hx) o uuids w
        (.refl w)
  | _ => exact h.elim

/-- A key of the keys file does not come from a cold operation. -/
theorem SameSession.keysFileKey {w w' : Wallet} (h : SameSession w w') (o : Order) :
    (Analysis.manager o w').m_keysFileKey = 0 ∨
      (Analysis.manager o w').m_keysFileKey = (Analysis.manager o w).m_keysFileKey := by
  rcases h.manager with heq | ⟨o', -, heq⟩
  · cases hm : w'.m_keyManager with
    | none =>
        unfold Analysis.manager
        rw [hm]
        exact Or.inl (new_m_keysFileKey o w'.host)
    | some m =>
        rw [manager_of_some hm, manager_of_some (heq.symm.trans hm)]
        exact Or.inr rfl
  · rw [manager_of_some heq]
    exact Or.inl (new_m_keysFileKey o' w.host)

/-! ## The keys file -/

/-- The text of the keys file is not empty. -/
theorem fileText_ne_nil {o : Order} {m : KeyManager} {text : Bytes}
    (h : m.fileText o = .ok text) : text ≠ [] := by
  obtain ⟨heq, hsize⟩ := fileText_eq h
  rw [heq] at hsize ⊢
  exact (readsAs_list_of_le hsize).ne_nil

/-- There is a keys file when the key manager has a key for it, and a salt when there is a
keys file. -/
structure Backed (s : Opened) : Prop where
  key : s.m.m_keysFileKey ≠ 0 → s.host.keys ≠ []
  salt : s.host.keys ≠ [] → s.host.salt ≠ []

/-- The keys file exists if it and its salt are not empty. -/
theorem fileExists_iff {host : Host} :
    KeyManager.fileExists host = true ↔ host.salt ≠ [] ∧ host.keys ≠ [] := by
  simp [KeyManager.fileExists]

/-- Without the files there is no text. -/
theorem Backed.keys_eq_nil {s : Opened} (h : Backed s)
    (hfile : KeyManager.fileExists s.host = false) : s.host.keys = [] := by
  by_contra hkeys
  rw [fileExists_iff.mpr ⟨h.salt hkeys, hkeys⟩] at hfile
  cases hfile

/-- Without the files there is no key, and nothing is written. -/
theorem Backed.afterWrite_eq {s : Opened} (h : Backed s) {o : Order}
    (hfile : KeyManager.fileExists s.host = false) : afterWrite P o s = s := by
  unfold afterWrite
  rw [if_pos]
  by_contra hkey
  exact h.key hkey (h.keys_eq_nil hfile)

/-- The same, of a wallet, whether its key manager is open or not. -/
def FileBacked (w : Wallet) : Prop := ∀ o, Backed (opened o w)

/-- Whether the key has its file depends on the key and the two files only. -/
theorem Backed.of_eq {s s' : Opened} (h : Backed s) (hkey : s'.m.m_keysFileKey = s.m.m_keysFileKey)
    (hkeys : s'.host.keys = s.host.keys) (hsalt : s'.host.salt = s.host.salt) : Backed s' := by
  refine ⟨?_, ?_⟩
  · rw [hkey, hkeys]
    exact h.key
  · rw [hkeys, hsalt]
    exact h.salt

/-- A write under a key gives that key its file, if there is a salt. -/
theorem backed_afterWriteKey {o : Order} {key : H128} {s : Opened} (h : Backed s)
    (hsalt : s.host.salt ≠ []) : Backed (afterWriteKey P o key s) := by
  have hfile := afterWriteKey_host P o key s
  rcases hfile with ⟨e, htext, hsame⟩ | ⟨text, htext, hnew⟩
  · unfold afterWriteKey
    rw [htext]
    exact h
  · refine ⟨fun _ => ?_, fun _ => by rw [afterWriteKey_salt]; exact hsalt⟩
    rw [hnew]
    exact fun hnil => fileText_ne_nil htext (Platform.encryptSymNoAuth_eq_nil P |>.mp hnil)

/-- A write leaves the key with its file. -/
theorem backed_afterWrite {o : Order} {s : Opened} (h : Backed s) :
    Backed (afterWrite P o s) := by
  unfold afterWrite
  split
  · exact h
  · exact backed_afterWriteKey P h (h.salt (h.key ‹_›))

/-- When the files are not there after a write, nothing was written. -/
theorem Backed.afterWrite_eq_of_after {s : Opened} (h : Backed s) {o : Order}
    (hfile : KeyManager.fileExists (afterWrite P o s).host = false) : afterWrite P o s = s := by
  have hkeys := (backed_afterWrite P (o := o) h).keys_eq_nil hfile
  unfold afterWrite
  rw [if_pos]
  by_contra hkey
  exact (backed_afterWrite P (o := o) h).key (by rw [afterWrite_keysFileKey]; exact hkey) hkeys

/-- Preparing a new keys file leaves the key with its file. -/
theorem backed_prepared {pass : Bytes} {default salt : H256} {s : Opened} (h : Backed s) :
    Backed (prepared P pass default salt s) :=
  ⟨h.key, fun _ => m_data_ne_nil salt⟩

/-- A load takes a key only where there is a file. -/
theorem backed_load {pass : Bytes} {s : Opened} (h : Backed s) :
    Backed (Exec.finalState (KeyManager.load P pass) s) := by
  have hframe := load_frame P pass s
  refine ⟨fun hkey => ?_, fun hkeys => ?_⟩
  · rw [hframe.keys]
    rw [load_keysFileKey] at hkey
    split at hkey
    · exact h.key hkey
    · assumption
  · rw [hframe.keys] at hkeys
    rw [hframe.salt]
    exact h.salt hkeys

/-- The same session has its file. -/
theorem SameSession.fileBacked {w w' : Wallet} (h : SameSession w w') (hw : FileBacked w) :
    FileBacked w' := by
  refine fun o => ⟨fun hkey => ?_, ?_⟩
  · show w'.host.keys ≠ []
    rw [h.keys]
    refine (hw o).key ?_
    rcases h.keysFileKey o with hzero | heq
    · exact (hkey hzero).elim
    · rw [show (opened o w).m.m_keysFileKey = (opened o w').m.m_keysFileKey from heq.symm]
      exact hkey
  · show w'.host.keys ≠ [] → w'.host.salt ≠ []
    rw [h.keys, h.salt]
    exact (hw o).salt

/-- **Each step** keeps this. -/
theorem fileBacked_step {w : Wallet} {a : Action} (h : FileBacked w) :
    FileBacked (Wallet.step P w a) := by
  cases a with
  | restart =>
      refine fun o => ⟨fun hkey => ?_, (h o).salt⟩
      exact (hkey (new_m_keysFileKey o w.host)).elim
  | createAccount o name password d =>
      have himported : ∀ c, Backed (afterWrite P o (imported P c (opened o w))) :=
        fun c => backed_afterWrite P ((h o).of_eq rfl rfl rfl)
      rcases createAccount_ends P o name password d w with
        ⟨e, hk, hw⟩ | ⟨k, c, hk, hc, hcan, hw⟩ | ⟨k, c, hk, hc, hcan, hexists, hw⟩ |
          ⟨k, c, hk, hc, hcan, hexists, hw⟩
      · rw [hw]
        exact fun _ => h o
      · rw [hw]
        exact fun _ => himported c
      · rw [hw]
        exact fun _ => himported c
      · rw [hw]
        exact fun _ => backed_afterWriteKey P (backed_prepared P (himported c))
          (m_data_ne_nil d.fileSalt)
  | login o password =>
      rcases login_leaves P o password w with ⟨hnone, hw⟩ | ⟨u, hu, hcan, hw⟩ | ⟨u, hu, hcan, hw⟩
      · rw [hw]
        exact fun _ => h o
      · rw [hw]
        exact fun _ => backed_afterWrite P
          ((h o).of_eq (enteredAgain_m_keysFileKey P u _ _) rfl rfl)
      · rw [hw]
        exact fun _ => backed_load P (backed_afterWrite P
          ((h o).of_eq (enteredAgain_m_keysFileKey P u _ _) rfl rfl))
  | logout o =>
      rcases logout_ends P o w with ⟨hm, hw⟩ | ⟨m, hm, hcan, hw⟩ | ⟨m, hm, hcan, hw⟩
      · rw [hw]
        exact h
      · have hopened := h o
        rw [opened, manager_of_some hm] at hopened
        rw [hw]
        exact fun _ => backed_afterWrite P (hopened.of_eq rfl rfl rfl)
      · have hopened := h o
        rw [opened, manager_of_some hm] at hopened
        rw [hw]
        exact fun _ => backed_afterWrite P (hopened.of_eq rfl rfl rfl)
  | generateAddress o d => exact (sameSession_cold P trivial).fileBacked h
  | loadAddresses o uuids => exact (sameSession_cold P trivial).fileBacked h
  | getAddresses o uuids => exact (sameSession_cold P trivial).fileBacked h

/-- A wallet that has done nothing has no key that could be without a file. -/
theorem fileBacked_empty : FileBacked {} :=
  fun o => ⟨fun hkey => (hkey (new_m_keysFileKey o {})).elim, fun h => (h rfl).elim⟩

/-- In every run the key of the keys file has its file. -/
theorem fileBacked_run (as : List Action) : FileBacked (Wallet.run P as) :=
  EveryStep.invariant (G := fun _ _ _ => True) (I := fun _ w => FileBacked w) fileBacked_empty
    (fun _ _ hI _ => fileBacked_step P hI) fun _ _ _ _ => trivial

end TronWallet.Analysis
