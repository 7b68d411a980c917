import TronWallet.Analysis.ColdFiles
import TronWallet.Analysis.Sessions
import TronWallet.Reference.Runs

/-!
# What a logout leaves within reach

`Logout` erases one address from the tables of the key manager and empties the cache of
secrets.  It keeps the passwords that are cached, the addresses of other accounts and the
tables of the cold wallet.  `LeavesNothing` says when none of that leads to a secret:
the cold wallet holds no key, and the password of each address that is left is not known.

Access then stays closed until somebody logs in (`closed_step`), because nothing but
`GenerateAddress` puts a key into the cold wallet of nobody: a cold file under the empty
name does not exist (`emptyName_run`).
-/

set_option autoImplicit false

namespace TronWallet.Theorems

open TronWallet.Lib TronWallet.Model TronWallet.Analysis

variable (P : Platform)

/-! ## The property -/

/-- No key can be had: no cold key is found, and `GetPrivate` throws. -/
structure NoAccess (w : Wallet) : Prop where
  cold : ∀ o s, Wallet.lookupPrivate o w s = 0
  account : ∀ a, ∃ e w', Wallet.getPrivate P a w = .error e w'

/-- An action that may log an account in. -/
def Enters : Action → Prop
  | .createAccount .. => True
  | .login .. => True
  | _ => False

instance (a : Action) : Decidable (Enters a) :=
  match a with
  | .restart | .createAccount .. | .login .. | .logout .. | .generateAddress ..
  | .loadAddresses .. | .getAddresses .. => by unfold Enters; infer_instance

/-- **Logout ends access to every key**, until an account is created or logged in. -/
def LogoutEndsAccess (as : List Action) : Prop :=
  ∀ before o later rest, as = before ++ Action.logout o :: later ++ rest →
    (∀ a ∈ later, ¬ Enters a) → NoAccess P (Wallet.run P (before ++ Action.logout o :: later))

/-! ## The condition -/

/-- The cold wallet holds no key other than zero. -/
def NoColdKey (w : Wallet) : Prop :=
  ∀ p ∈ UnorderedMap.pairs w.address_lookup_, ∀ b ∈ w.cached_.lookup p.1,
    (FixedHash.ofBytes b : Secret) = 0

/-- A password with a given hash is known once the keys file has been written: it is cached,
or it is the master password, which the write caches again. -/
def PasswordKnown (o : Order) (m : KeyManager) (h : H256) : Prop :=
  h ∈ m.m_cachedPasswords ∨ (m.m_keysFileKey ≠ 0 ∧ CanWriteKey o m ∧
    (m.m_cachedPasswords.lookup m.m_master).map (m.hashPassword P) = some h)

/-- When the address logged in is erased, every address left has a stored key, whose
password is not known. -/
def LeavesNothing (o : Order) (w : Wallet) : Prop :=
  NoColdKey w ∧ ∀ m ∈ w.m_keyManager,
    ∀ e ∈ UnorderedMap.pairs (forgotten w m).m.m_addrLookup, e.2 ∈ m.m_store.m_keys ∧
      ¬ PasswordKnown P o (forgotten w m).m ((forgotten w m).m.passHashOf e.2)

/-- The account logged in has its key. -/
def HasKey (w : Wallet) : Prop :=
  (Exec.result? (Wallet.getPrivate P (toAddress w.Address)) w).isSome

/-- The condition of a step: a logout leaves nothing within reach, and the cold wallet is
used by an account that has its key, or only read and by nobody. -/
def EndsAccessStep (_ : List Action) (w : Wallet) : Action → Prop
  | .logout o => LeavesNothing P o w
  | .generateAddress .. => HasKey P w
  | .loadAddresses .. => w.Address = [] ∨ HasKey P w
  | .getAddresses .. => w.Address = [] ∨ HasKey P w
  | _ => True

instance (w : Wallet) : Decidable (NoColdKey w) := by
  unfold NoColdKey
  infer_instance

instance (o : Order) (m : KeyManager) (h : H256) : Decidable (PasswordKnown P o m h) := by
  unfold PasswordKnown
  infer_instance

instance (o : Order) (w : Wallet) : Decidable (LeavesNothing P o w) := by
  unfold LeavesNothing
  infer_instance

instance (w : Wallet) : Decidable (HasKey P w) := by
  unfold HasKey
  infer_instance

instance (before : List Action) (w : Wallet) (a : Action) :
    Decidable (EndsAccessStep P before w a) :=
  match a with
  | .restart | .createAccount .. | .login .. | .logout .. | .generateAddress ..
  | .loadAddresses .. | .getAddresses .. => by unfold EndsAccessStep; infer_instance

/-! ## Keys that cannot be had -/

/-- Every address the key manager knows has a stored key that is not cached, and whose
password is not cached. -/
def Sealed (m : KeyManager) : Prop :=
  ∀ a u, m.m_addrLookup.lookup a = some u → m.m_store.m_cached.lookup u = none ∧
    u ∈ m.m_store.m_keys ∧ m.passHashOf u ∉ m.m_cachedPasswords

/-- The store throws for the keys whose password it would have to ask for. -/
theorem store_secret_throws_iff {s : SecretStore} {u : H128} {pass : Except Exn Bytes} :
    (∃ e, s.secret P u pass = .error e) ↔
      s.m_cached.lookup u = none ∧ u ∈ s.m_keys ∧ ∃ e, pass = .error e := by
  unfold SecretStore.secret
  cases hb : s.m_cached.lookup u with
  | some b => simp
  | none =>
      cases hk : s.m_keys.lookup u with
      | none =>
          have hmem : u ∉ s.m_keys := AList.lookup_eq_none.mp hk
          simp [hmem]
      | some k =>
          have hmem : u ∈ s.m_keys := AList.lookup_isSome.mp (by rw [hk]; rfl)
          cases pass with
          | error e => simp [hmem, bind, Except.bind]
          | ok p =>
              simp only [bind, Except.bind]
              split <;> simp

/-- A password cannot be had exactly when it is not cached under the hash of the key. -/
theorem getPassword_throws_iff {m : KeyManager} {u : H128} :
    (∃ e, m.getPassword u = .error e) ↔ m.passHashOf u ∉ m.m_cachedPasswords := by
  unfold KeyManager.getPassword KeyManager.passwordOfHash
  rw [← AList.lookup_eq_none]
  cases m.m_cachedPasswords.lookup (m.passHashOf u) <;> simp

/-- **When no secret can be had** of a key manager. -/
theorem secret_throws_iff {m : KeyManager} :
    (∀ a, ∃ e, m.secret P a = .error e) ↔ Sealed m := by
  have hone : ∀ a, (∃ e, m.secret P a = .error e) ↔ ∀ u, m.m_addrLookup.lookup a = some u →
      ∃ e, m.m_store.secret P u (m.getPassword u) = .error e := by
    intro a
    unfold KeyManager.secret
    cases hu : m.m_addrLookup.lookup a with
    | none => simp
    | some u => cases h : m.m_store.secret P u (m.getPassword u) <;> simp [h, bind, Except.bind]
  simp only [hone, store_secret_throws_iff, getPassword_throws_iff, Sealed]

/-- A wallet whose key manager is sealed, or not open. -/
theorem getPrivate_throws {w : Wallet} (h : ∀ m, w.m_keyManager = some m → Sealed m)
    (a : Address) : ∃ e w', Wallet.getPrivate P a w = .error e w' := by
  unfold Wallet.getPrivate
  rw [Exec.bind_apply, Exec.get_apply]
  simp only
  cases hm : w.m_keyManager with
  | none => exact ⟨_, _, rfl⟩
  | some m =>
      obtain ⟨e, he⟩ := (secret_throws_iff P).mpr (h m hm) a
      refine ⟨e, w, ?_⟩
      simp only [he, Exec.bind_apply, Exec.ofExcept_error]

/-- Without cold keys in memory every lookup gives the zero secret. -/
theorem lookupPrivate_eq_zero {w : Wallet} (h : NoColdKey w) (o : Order) (s : Bytes) :
    Wallet.lookupPrivate o w s = 0 := by
  by_contra hne
  obtain ⟨uuid, b, haddr, hb, hzero⟩ := exists_entry_of_lookupPrivate hne
  exact hne (hzero.trans (h (uuid, s) (UnorderedMap.mem_pairs.mpr haddr) b hb))

/-! ## Closed wallets -/

/-- A wallet of which no key can be had, as its tables show. -/
structure Closed (w : Wallet) : Prop where
  cold : NoColdKey w
  manager : ∀ m, w.m_keyManager = some m → Sealed m

/-- With nothing cached there is no access to a key. -/
theorem Closed.noAccess {w : Wallet} (h : Closed w) : NoAccess P w :=
  ⟨lookupPrivate_eq_zero h.cold, getPrivate_throws P h.manager⟩

/-- With nothing cached there is no key pair. -/
theorem Closed.not_hasKey {w : Wallet} (h : Closed w) : ¬ HasKey P w := by
  obtain ⟨e, w', he⟩ := getPrivate_throws P h.manager (toAddress w.Address)
  unfold HasKey Exec.result?
  rw [he]
  exact fun hsome => by cases hsome

/-- The passwords that are known after the keys file has been written. -/
theorem mem_cachedPasswords_afterWrite {o : Order} {s : Opened} {h : H256} :
    h ∈ (afterWrite P o s).m.m_cachedPasswords ↔ PasswordKnown P o s.m h := by
  unfold afterWrite PasswordKnown
  by_cases hkey : s.m.m_keysFileKey = 0
  · simp [hkey]
  · simp only [hkey, if_false, ne_eq, not_false_eq_true, true_and]
    unfold afterWriteKey CanWriteKey
    cases htext : s.m.fileText o with
    | error e => simp
    | ok text =>
        cases hp : s.m.m_cachedPasswords.lookup s.m.m_master with
        | none => simp [wrote]
        | some p =>
            simp only [KeyManager.cachePassword, wrote, KeyManager.hashPassword,
              AList.mem_insert, Option.map_some, Option.some.injEq]
            constructor
            · rintro (rfl | hmem)
              · exact Or.inr ⟨⟨⟨text, rfl⟩, p, rfl⟩, rfl⟩
              · exact Or.inl hmem
            · rintro (hmem | ⟨-, rfl⟩)
              · exact Or.inr hmem
              · exact Or.inl rfl

/-- **A logout that leaves nothing** closes the wallet, whether it returns or throws. -/
theorem closed_logout {o : Order} {w : Wallet} (h : LeavesNothing P o w) :
    Closed (Wallet.step P w (.logout o)) := by
  obtain ⟨hcold, hleft⟩ := h
  have hsame := sameCold_logout P o w
  refine ⟨?_, ?_⟩
  · unfold NoColdKey
    rw [hsame.lookup, hsame.cached]
    exact hcold
  · have hsealed : ∀ m, w.m_keyManager = some m → Sealed (afterWrite P o (forgotten w m)).m := by
      intro m hm a u hu
      have htables := sameTables_afterWrite P o (forgotten w m)
      rw [htables.addrLookup] at hu
      obtain ⟨hstored, hunknown⟩ := hleft m hm (a, u) (UnorderedMap.mem_pairs.mpr hu)
      refine ⟨?_, ?_, ?_⟩
      · rw [htables.store]
        rfl
      · rw [htables.store]
        exact hstored
      · rw [mem_cachedPasswords_afterWrite]
        unfold KeyManager.passHashOf at hunknown ⊢
        rw [htables.uuidLookup, htables.keyInfo]
        exact hunknown
    intro m' hm'
    rcases logout_ends P o w with ⟨hm, hw⟩ | ⟨m, hm, hcan, hw⟩ | ⟨m, hm, hcan, hw⟩
    · rw [hw, hm] at hm'
      cases hm'
    · rw [hw] at hm'
      cases hm'
      exact hsealed m hm
    · rw [hw] at hm'
      cases hm'
      exact hsealed m hm

/-! ## The cold file of nobody -/

/-- There is no cold file under the empty name. -/
def EmptyName (w : Wallet) : Prop := w.host.coldWallet.lookup [] = none

/-- Generating an address does not make a cold file without a name. -/
theorem generateAddress_keepsEmptyName (o : Order) (d : GenerateDraws) :
    Exec.Keeps EmptyName (Wallet.generateAddress P o d) := by
  unfold Wallet.generateAddress
  refine .bind (.of_modify fun w h => ?_) fun _ => .ofExcept_bind fun k => .modify_bind
    (fun w h => h) fun _ => .get_bind fun w h => ?_
  · cases w.m_keyManager <;> exact h
  · refine Exec.Keeps.bind (askKeyManager_keeps _ _) (fun ⟨chipper, call⟩ => ?_) w h
    refine .modify_bind (fun w' h => by cases call <;> exact h) fun _ => ?_
    dsimp only
    split
    · exact fun _ h => h
    · refine .bind (.of_modify fun w' h => ?_) fun _ => .of_pure _
      split
      next => exact h
      next hname =>
        unfold EmptyName
        rw [UnorderedMap.lookup_insert_eq, if_neg (Ne.symm hname)]
        exact h

/-- No step makes a cold file without a name. -/
theorem emptyName_step {w : Wallet} {a : Action} (h : EmptyName w) :
    EmptyName (Wallet.step P w a) := by
  have hsame : SameCold w (Wallet.step P w a) → EmptyName (Wallet.step P w a) := by
    intro hsame
    unfold EmptyName
    rw [hsame.files]
    exact h
  cases a with
  | restart => exact h
  | createAccount o name password d => exact hsame (sameCold_createAccount P o name password d w)
  | login o password => exact hsame (sameCold_login P o password w)
  | logout o => exact hsame (sameCold_logout P o w)
  | generateAddress o d => exact generateAddress_keepsEmptyName P o d w h
  | loadAddresses o uuids => exact loadAddresses_keeps P (fun w l c h => h) o uuids w h
  | getAddresses o uuids => exact getAddresses_keeps P (fun w l c h => h) o uuids w h

/-- No run makes a cold file without a name. -/
theorem emptyName_run (as : List Action) : EmptyName (Wallet.run P as) := by
  have hstart : EmptyName {} := rfl
  exact EveryStep.invariant (G := fun _ _ _ => True) (I := fun _ w => EmptyName w) hstart
    (fun _ _ hI _ => emptyName_step P hI) fun _ _ _ _ => trivial

/-- When nobody is logged in there is nothing to load. -/
theorem loadAddresses_of_nobody {w : Wallet} (haddress : w.Address = []) (h : EmptyName w)
    (o : Order) (uuids : ℕ → H128) : Wallet.loadAddresses P o uuids w = .ok () w := by
  have hnone : w.host.coldWallet.lookup (toHex w.Address) = none := by
    rw [haddress]
    exact h
  unfold Wallet.loadAddresses
  rw [Exec.bind_apply, Exec.get_apply]
  simp only [hnone]
  split <;> rfl

/-- With nobody logged in, listing the addresses changes nothing. -/
theorem getAddresses_of_nobody {w : Wallet} (haddress : w.Address = []) (h : EmptyName w)
    (o : Order) (uuids : ℕ → H128) :
    Exec.finalState (Wallet.getAddresses P o uuids) w = w := by
  unfold Wallet.getAddresses
  rw [Exec.finalState_get_bind]
  dsimp only
  split
  · rw [Exec.finalState_bind, loadAddresses_of_nobody P haddress h]
    rfl
  · rfl

/-! ## Every run -/

/-- A closed wallet stays closed until an account is created or logged in. -/
theorem closed_step {before : List Action} {w : Wallet} {a : Action} (h : Closed w)
    (hname : EmptyName w) (ha : ¬ Enters a) (hG : EndsAccessStep P before w a) :
    Closed (Wallet.step P w a) := by
  cases a with
  | restart =>
      refine ⟨fun p hp => ?_, fun m hm => ?_⟩
      · cases hp
      · cases hm
  | createAccount o name password d => exact (ha trivial).elim
  | login o password => exact (ha trivial).elim
  | logout o => exact closed_logout P hG
  | generateAddress o d => exact (h.not_hasKey P hG).elim
  | loadAddresses o uuids =>
      rcases hG with hnobody | hkey
      · rw [show Wallet.step P w (.loadAddresses o uuids) = w from
          Exec.finalState_of_ok (loadAddresses_of_nobody P hnobody hname o uuids)]
        exact h
      · exact (h.not_hasKey P hkey).elim
  | getAddresses o uuids =>
      rcases hG with hnobody | hkey
      · rw [show Wallet.step P w (.getAddresses o uuids) = w from
          getAddresses_of_nobody P hnobody hname o uuids]
        exact h
      · exact (h.not_hasKey P hkey).elim

/-- **Logout ends access to every key** in a run in which it leaves nothing. -/
theorem logoutEndsAccess (as : List Action)
    (hsteps : EveryStep (Wallet.step P) {} (EndsAccessStep P) as) : LogoutEndsAccess P as := by
  intro before o later rest has hlater
  have hcut : before ++ Action.logout o :: later = (before ++ [Action.logout o]) ++ later := by simp
  rw [has, hcut] at hsteps
  rw [hcut]
  refine Closed.noAccess P (EveryStep.invariant_along
    (I := fun _ w => Closed w ∧ EmptyName w) (before ++ [Action.logout o])
    ⟨?_, emptyName_run P _⟩ ?_ later hlater hsteps.of_append).1
  · rw [runFrom_concat]
    exact closed_logout P hsteps.of_append.of_append.at_step
  · rintro done a - ha ⟨hclosed, hname⟩ hG
    exact ⟨closed_step P hclosed hname ha hG, emptyName_step P hname⟩

/-- An address is generated before the logout. -/
def generatedRun : List Action :=
  [Reference.create [1] [2] 1, Reference.generate 7, Reference.leave]

/-- Its key is found afterwards. -/
theorem access_after_logout : ¬ LogoutEndsAccess Reference.reference generatedRun := by
  intro h
  have hzero := (h [Reference.create [1] [2] 1, Reference.generate 7] Order.held [] [] rfl
    (fun a ha => by cases ha)).cold Order.held (Reference.generated 7)
  revert hzero
  decide +kernel

/-- An account created in an earlier session, of which the password is not known. -/
theorem logoutEndsAccess_restarted : LogoutEndsAccess Reference.reference
    [Reference.create [1] [2] 1, .restart, Reference.create [5] [3] 3, Reference.leave,
      Reference.list 40] :=
  logoutEndsAccess Reference.reference _ (EveryStep.of_check (by decide +kernel))

end TronWallet.Theorems
