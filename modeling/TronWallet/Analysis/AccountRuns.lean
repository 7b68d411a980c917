import TronWallet.Analysis.AccountTables

/-!
# Accounts over a run

The step lemmas for the tables of `AccountTables`: each action of a run keeps them in
order (`tables_step`), and keeps the secret of the account logged in (`held_step`) unless
it is a `Logout` that throws.

Assumed is what the theorems about runs assume.  The authentication code of a key file is
right for its own password only (`MacSound`), and a keys file decrypted with another key is
not of version 1 (`WrongKeyNotVersionOne`).  That accounts are new when they are created,
in identifier and address, and have valid secrets, is a condition on what is drawn
(`FreshStep`).
-/

set_option autoImplicit false

namespace TronWallet.Analysis

open TronWallet.Lib TronWallet.Model

variable (P : Platform)

/-! ## Assumptions and conditions -/

/-- No other account's key file is taken for the password given. -/
def MacStep (before : List Action) (_ : Wallet) : Action → Prop
  | .login _ password => ∀ c ∈ accountsOf P before, password ≠ c.password →
      SecretStore.decrypt P (c.crypto P) password = []
  | _ => True

/-- **A wrong password never passes the authentication code.** -/
def MacSound (as : List Action) : Prop := EveryStep (Wallet.step P) {} (MacStep P) as

/-- The keys file a login leaves is not taken for one of version 1 under another key. -/
def VersionStep (_ : List Action) (w : Wallet) : Action → Prop
  | .login o password => KeysFileReadsOwn P password (Wallet.step P w (.login o password)).host
  | _ => True

/-- **A wrong key never yields a keys file of version 1.** -/
def WrongKeyNotVersionOne (as : List Action) : Prop :=
  EveryStep (Wallet.step P) {} (VersionStep P) as

/-- An account that is created has a valid secret, a new identifier and a new address. -/
def FreshStep (before : List Action) (_ : Wallet) : Action → Prop
  | .createAccount _ _ _ d => ∀ k ∈ (Wallet.makeKey P d.seed d.rounds).toOption,
      k.m_address ≠ ZeroAddress ∧
        ∀ c ∈ accountsOf P before, c.uuid ≠ d.uuid ∧ c.address P ≠ k.m_address
  | _ => True

/-- A logout of an account goes through. -/
def LogoutWrites (w : Wallet) : Action → Prop
  | .logout o => w.Address ≠ [] → ∀ m ∈ w.m_keyManager, CanWrite o (forgotten w m).m
  | _ => True

instance (pass : Bytes) (host : Host) : Decidable (KeysFileReadsOwn P pass host) :=
  decidable_of_iff (∀ c ∈ host.ctrCalls, c.site = .keysFile →
      host.keys = P.encryptSymNoAuth c.key c.iv c.plain →
        c.key = KeyManager.fileKey P pass host.salt ∨
          (versionOf (P.decryptSymNoAuth (KeyManager.fileKey P pass host.salt) 0
            host.keys)).toOption ≠ some 1) <| by
    have hoption : ∀ x : Except Exn ℕ, x.toOption ≠ some 1 ↔ x ≠ .ok 1 := fun x => by
      cases x <;> simp [Except.toOption]
    unfold KeysFileReadsOwn
    simp only [hoption]

instance (before : List Action) (w : Wallet) (a : Action) : Decidable (MacStep P before w a) :=
  match a with
  | .restart | .createAccount .. | .login .. | .logout .. | .generateAddress ..
  | .loadAddresses .. | .getAddresses .. => by unfold MacStep; infer_instance

instance (before : List Action) (w : Wallet) (a : Action) :
    Decidable (VersionStep P before w a) :=
  match a with
  | .restart | .createAccount .. | .login .. | .logout .. | .generateAddress ..
  | .loadAddresses .. | .getAddresses .. => by unfold VersionStep; infer_instance

instance (before : List Action) (w : Wallet) (a : Action) :
    Decidable (FreshStep P before w a) :=
  match a with
  | .restart | .createAccount .. | .login .. | .logout .. | .generateAddress ..
  | .loadAddresses .. | .getAddresses .. => by unfold FreshStep; infer_instance

instance (w : Wallet) (a : Action) : Decidable (LogoutWrites w a) :=
  match a with
  | .restart | .createAccount .. | .login .. | .logout .. | .generateAddress ..
  | .loadAddresses .. | .getAddresses .. => by unfold LogoutWrites; infer_instance

/-- Without accounts there are no two alike. -/
theorem distinctAccounts_nil : DistinctAccounts P [] :=
  ⟨fun c hc => (by cases hc), fun c hc => (by cases hc), fun c hc => (by cases hc)⟩

/-- A new account makes the accounts distinct again. -/
theorem distinctAccounts_step {before : List Action} {w : Wallet} {a : Action}
    (h : DistinctAccounts P (accountsOf P before)) (hfresh : FreshStep P before w a) :
    DistinctAccounts P (accountsOf P (before ++ [a])) := by
  rw [accountsOf_append, accountsOf_singleton]
  cases hc : createdBy P a with
  | none => simpa using h
  | some c =>
      have hnew : c.address P ≠ ZeroAddress ∧
          ∀ c' ∈ accountsOf P before, c'.uuid ≠ c.uuid ∧ c'.address P ≠ c.address P := by
        cases a with
        | createAccount o name password d =>
            unfold createdBy at hc
            dsimp only at hc
            split at hc
            next k hk =>
              cases hc
              obtain ⟨hzero, hother⟩ := hfresh k (by rw [hk]; rfl)
              rw [makeKey_address P name password hk] at hzero hother
              exact ⟨hzero, fun c' hc' => hother c' hc'⟩
            next => cases hc
        | _ => cases hc
      refine ⟨fun x hx => ?_, fun x hx y hy heq => ?_, fun x hx y hy heq => ?_⟩ <;>
        simp only [Option.toList_some, List.mem_append, List.mem_singleton] at hx
      · rcases hx with hx | rfl
        · exact h.nonzero x hx
        · exact hnew.1
      · simp only [Option.toList_some, List.mem_append, List.mem_singleton] at hy
        rcases hx with hx | rfl <;> rcases hy with hy | rfl
        · exact h.uuid x hx y hy heq
        · exact ((hnew.2 x hx).1 heq).elim
        · exact ((hnew.2 y hy).1 heq.symm).elim
        · rfl
      · simp only [Option.toList_some, List.mem_append, List.mem_singleton] at hy
        rcases hx with hx | rfl <;> rcases hy with hy | rfl
        · exact h.address x hx y hy heq
        · exact ((hnew.2 x hx).2 heq).elim
        · exact ((hnew.2 y hy).2 heq.symm).elim
        · rfl

/-! ## The tables -/

/-- The tables of a computer on which the wallet has never run. -/
theorem tablesOk_empty {N : Address → KeyInfo → Prop} (o : Order) :
    TablesOk P [] N (opened o {}) :=
  tablesOk_new P (fun u k hk => (by cases hk)) (Or.inl rfl)

/-- The states in which a step writes the keys file. -/
inductive WritesFrom (w : Wallet) : Action → Opened → Prop where
  | imported (o : Order) (name password : Bytes) (d : CreateDraws) (k : KeyPair)
      (hk : Wallet.makeKey P d.seed d.rounds = .ok k) (hkey : (manager o w).m_keysFileKey ≠ 0) :
      WritesFrom w (.createAccount o name password d)
        (imported P (accountOf k name password d) (opened o w))
  | prepared (o : Order) (name password : Bytes) (d : CreateDraws) (k : KeyPair)
      (hk : Wallet.makeKey P d.seed d.rounds = .ok k) :
      WritesFrom w (.createAccount o name password d)
        (prepared P password d.default d.fileSalt
          (afterWrite P o (imported P (accountOf k name password d) (opened o w))))
  | entered (o : Order) (password : Bytes) (u : H128)
      (hu : firstUnlocked P o (manager o w) password = some u)
      (hkey : (manager o w).m_keysFileKey ≠ 0) :
      WritesFrom w (.login o password) (enteredAgain P u password (opened o w))
  | forgotten (o : Order) (m : KeyManager) (hm : w.m_keyManager = some m)
      (hkey : m.m_keysFileKey ≠ 0) : WritesFrom w (.logout o) (forgotten w m)

section Step

variable {L : List Account} {N : Address → KeyInfo → Prop} {before : List Action} {w : Wallet}
  {a : Action}

/-- The account a step creates is on the list. -/
theorem accountOf_mem {o : Order} {name password : Bytes} {d : CreateDraws} {k : KeyPair}
    (hk : Wallet.makeKey P d.seed d.rounds = .ok k) : accountOf k name password d ∈
      accountsOf P (before ++ [.createAccount o name password d]) := by
  rw [accountsOf_append, accountsOf_singleton]
  simp [createdBy, hk, accountOf]

/-- A login creates no account. -/
theorem accountsOf_concat_of_login {o : Order} {password : Bytes} :
    accountsOf P (before ++ [.login o password]) = accountsOf P before := by
  rw [accountsOf_append, accountsOf_singleton]
  simp [createdBy]

/-- Loading looks at the keys file the step leaves. -/
theorem readsOwn_of_step {o : Order} {password : Bytes} {u : H128}
    (hreads : KeysFileReadsOwn P password (Wallet.step P w (.login o password)).host)
    (hu : firstUnlocked P o (manager o w) password = some u)
    (hcan : CanWrite o (enteredAgain P u password (opened o w)).m) :
    KeysFileReadsOwn P password
      (afterWrite P o (enteredAgain P u password (opened o w))).host := by
  rcases login_leaves P o password w with ⟨hnone, hw⟩ | ⟨u', hu', hcan', hw⟩ | ⟨u', hu', hcan', hw⟩
  · rw [hu] at hnone
    cases hnone
  · rw [hu] at hu'
    cases hu'
    exact (hcan' hcan).elim
  · rw [hu] at hu'
    cases hu'
    have hframe := load_frame P password (afterWrite P o (enteredAgain P u password (opened o w)))
    unfold KeysFileReadsOwn at hreads ⊢
    rw [hw, loggedIn_host, withOpened_host, hframe.ctrCalls, hframe.keys, hframe.salt] at hreads
    exact hreads

/-- **Each step** keeps the tables in order. -/
theorem tables_step (hL : DistinctAccounts P (accountsOf P (before ++ [a])))
    (h : ∀ o, TablesOk P (accountsOf P (before ++ [a])) N (opened o w))
    (hmac : MacStep P before w a) (hversion : VersionStep P before w a)
    (hinfo : ∀ s, WritesFrom P w a s → ∀ x info, s.m.m_keyInfo.lookup x = some info → N x info) :
    ∀ o, TablesOk P (accountsOf P (before ++ [a])) N (opened o (Wallet.step P w a)) := by
  have hcold : SameSession w (Wallet.step P w a) →
      ∀ o, TablesOk P (accountsOf P (before ++ [a])) N (opened o (Wallet.step P w a)) := by
    intro hsame o
    have hcalls : ∀ c ∈ w.host.ctrCalls, c.site = .keysFile →
        c ∈ (Wallet.step P w a).host.ctrCalls := fun c hc _ => hsame.calls c hc
    have hdir := (h o).dir
    have hfile := (h o).file
    rcases hsame.manager with heq | ⟨o', hnone, heq⟩
    · cases hm : (Wallet.step P w a).m_keyManager with
      | none =>
          unfold opened manager
          rw [hm]
          refine tablesOk_new P ?_ (hfile.of_eq P hsame.keys hcalls)
          rw [hsame.accountDir]
          exact hdir
      | some m =>
          have hw := h o
          unfold opened at hw ⊢
          rw [manager_of_some hm]
          rw [manager_of_some (heq.symm.trans hm)] at hw
          exact hw.of_eq P rfl rfl hsame.accountDir hsame.keys hcalls
    · unfold opened
      rw [manager_of_some heq]
      exact (tablesOk_new P hdir hfile).of_eq P rfl rfl hsame.accountDir hsame.keys hcalls
  cases a with
  | restart => exact fun o => tablesOk_new P (h o).dir (h o).file
  | createAccount o name password d =>
      have himported : ∀ k, Wallet.makeKey P d.seed d.rounds = .ok k →
          TablesOk P (accountsOf P (before ++ [.createAccount o name password d])) N
            (afterWrite P o (imported P (accountOf k name password d) (opened o w))) :=
        fun k hk => tablesOk_afterWrite P (tablesOk_imported P (accountOf_mem P hk) (h o))
          fun hkey => hinfo _ (.imported o name password d k hk hkey)
      rcases createAccount_ends P o name password d w with
        ⟨e, hk, hw⟩ | ⟨k, c, hk, rfl, hcan, hw⟩ | ⟨k, c, hk, rfl, hcan, hexists, hw⟩ |
          ⟨k, c, hk, rfl, hcan, hexists, hw⟩
      · rw [hw]
        exact fun _ => h o
      · rw [hw]
        exact fun _ => himported k hk
      · rw [hw]
        exact fun _ => himported k hk
      · rw [hw]
        exact fun _ => tablesOk_afterWriteKey P
          ((himported k hk).of_eq P rfl rfl rfl rfl fun _ hc _ => hc)
          (hinfo _ (.prepared o name password d k hk))
  | login o password =>
      have hmac' : ∀ c ∈ accountsOf P (before ++ [.login o password]), password ≠ c.password →
          SecretStore.decrypt P (c.crypto P) password = [] := by
        rw [accountsOf_concat_of_login]
        exact hmac
      have hentered : ∀ u, firstUnlocked P o (manager o w) password = some u →
          TablesOk P (accountsOf P (before ++ [.login o password])) N
            (afterWrite P o (enteredAgain P u password (opened o w))) := by
        intro u hu
        obtain ⟨c, hc, huuid, hunlock⟩ := firstUnlocked_eq_secret P (h o) hmac' hu
        refine tablesOk_afterWrite P (tablesOk_enteredAgain P hL hc huuid hunlock (h o)) ?_
        rw [enteredAgain_m_keysFileKey]
        exact fun hkey => hinfo _ (.entered o password u hu hkey)
      rcases login_leaves P o password w with ⟨hnone, hw⟩ | ⟨u, hu, hcan, hw⟩ | ⟨u, hu, hcan, hw⟩
      · rw [hw]
        exact fun _ => h o
      · rw [hw]
        exact fun _ => hentered u hu
      · rw [hw]
        exact fun _ => tablesOk_load P hL (hentered u hu) (readsOwn_of_step P hversion hu hcan)
  | logout o =>
      have hforgotten : ∀ m, w.m_keyManager = some m →
          TablesOk P (accountsOf P (before ++ [.logout o])) N
            (afterWrite P o (forgotten w m)) := by
        intro m hm
        have hw := h o
        rw [opened, manager_of_some hm] at hw
        have hforgotten :
            TablesOk P (accountsOf P (before ++ [.logout o])) N (forgotten w m) := by
          refine ⟨hw.keys, hw.dir, fun u b hb => (by cases hb), fun x u hu => ?_, hw.file⟩
          rw [show (forgotten w m).m.m_addrLookup = m.m_addrLookup.erase (toAddress w.Address)
            from rfl, UnorderedMap.lookup_erase_eq] at hu
          split at hu
          · cases hu
          · exact hw.addr x u hu
        exact tablesOk_afterWrite P hforgotten fun hkey => hinfo _ (.forgotten o m hm hkey)
      rcases logout_ends P o w with ⟨hm, hw⟩ | ⟨m, hm, hcan, hw⟩ | ⟨m, hm, hcan, hw⟩
      · rw [hw]
        exact h
      · rw [hw]
        exact fun _ => hforgotten m hm
      · rw [hw]
        exact fun _ => hforgotten m hm
  | generateAddress o d => exact hcold (sameSession_cold P trivial)
  | loadAddresses o uuids => exact hcold (sameSession_cold P trivial)
  | getAddresses o uuids => exact hcold (sameSession_cold P trivial)

/-! ## The account logged in -/

/-- The key manager holds the secret of the account logged in. -/
def LoggedInHeld (L : List Account) (w : Wallet) : Prop :=
  w.Address ≠ [] → ∃ m, w.m_keyManager = some m ∧ ∃ c ∈ L, w.Address = toTronAddress (c.address P) ∧
    Held P c m

/-- **Each step** keeps the secret of the account logged in, if no logout throws. -/
theorem held_step (hL : DistinctAccounts P (accountsOf P (before ++ [a])))
    (h : ∀ o, TablesOk P (accountsOf P (before ++ [a])) N (opened o w))
    (hheld : LoggedInHeld P (accountsOf P (before ++ [a])) w)
    (hmac : MacStep P before w a) (hversion : VersionStep P before w a)
    (hinfo : ∀ s, WritesFrom P w a s → ∀ x info, s.m.m_keyInfo.lookup x = some info → N x info)
    (hlogout : LogoutWrites w a) :
    LoggedInHeld P (accountsOf P (before ++ [a])) (Wallet.step P w a) := by
  -- Where the account logged in stays the same, it is enough that its secret stays.
  have hstays : ∀ (s : Opened) (o : Order),
      (∀ c ∈ accountsOf P (before ++ [a]), Held P c (opened o w).m → Held P c s.m) →
        LoggedInHeld P (accountsOf P (before ++ [a])) (withOpened w s) := by
    intro s o hkeep haddr
    obtain ⟨m, hm, c, hc, hac, hcm⟩ := hheld haddr
    refine ⟨s.m, rfl, c, hc, hac, hkeep c hc ?_⟩
    rw [opened, manager_of_some hm]
    exact hcm
  have hcold : SameSession w (Wallet.step P w a) →
      LoggedInHeld P (accountsOf P (before ++ [a])) (Wallet.step P w a) := by
    intro hsame haddr
    rw [hsame.address] at haddr ⊢
    obtain ⟨m, hm, hc⟩ := hheld haddr
    rcases hsame.manager with heq | ⟨o', hnone, -⟩
    · exact ⟨m, heq.trans hm, hc⟩
    · rw [hnone] at hm
      cases hm
  cases a with
  | restart => exact fun haddr => (haddr rfl).elim
  | createAccount o name password d =>
      have hself : ∀ k, Wallet.makeKey P d.seed d.rounds = .ok k →
          Held P (accountOf k name password d)
            (afterWrite P o (imported P (accountOf k name password d) (opened o w))).m :=
        fun k _ => (held_imported_self P).of_sameTables P (sameTables_afterWrite P o _)
      rcases createAccount_ends P o name password d w with
        ⟨e, hk, hw⟩ | ⟨k, c, hk, rfl, hcan, hw⟩ | ⟨k, c, hk, rfl, hcan, hexists, hw⟩ |
          ⟨k, c, hk, rfl, hcan, hexists, hw⟩
      · rw [hw]
        exact hstays _ o fun c _ hc => hc
      · rw [hw]
        exact hstays _ o fun c hc hheld =>
          (hheld.imported P hL hc (accountOf_mem P hk)).of_sameTables P
            (sameTables_afterWrite P o _)
      · rw [hw]
        exact fun _ => ⟨_, rfl, _, accountOf_mem P hk, rfl, hself k hk⟩
      · rw [hw]
        refine fun _ => ⟨_, rfl, _, accountOf_mem P hk, rfl, ?_⟩
        refine Held.of_sameTables P ?_ (sameTables_afterWriteKey P o _ _)
        exact ⟨(hself k hk).addr, (hself k hk).cached⟩
  | login o password =>
      have hmac' : ∀ c ∈ accountsOf P (before ++ [.login o password]), password ≠ c.password →
          SecretStore.decrypt P (c.crypto P) password = [] := by
        rw [accountsOf_concat_of_login]
        exact hmac
      rcases login_leaves P o password w with ⟨hnone, hw⟩ | ⟨u, hu, hcan, hw⟩ | ⟨u, hu, hcan, hw⟩
      · rw [hw]
        exact hstays _ o fun c _ hc => hc
      · rw [hw]
        obtain ⟨c', hc', huuid, hunlock⟩ := firstUnlocked_eq_secret P (h o) hmac' hu
        exact hstays _ o fun c hc hheld =>
          (hheld.enteredAgain P huuid hunlock hL hc hc').of_sameTables P
            (sameTables_afterWrite P o _)
      · rw [hw]
        obtain ⟨c, hc, huuid, hunlock⟩ := firstUnlocked_eq_secret P (h o) hmac' hu
        have hunlock' : unlock P (manager o w).m_store u password = c.secret.m_data := hunlock
        refine fun _ => ⟨_, rfl, c, hc, ?_, ?_⟩
        · rw [loggedIn_Address, hunlock', addressOf_secret]
        · have htables : TablesOk P (accountsOf P (before ++ [.login o password])) N
              (afterWrite P o (enteredAgain P u password (opened o w))) := by
            refine tablesOk_afterWrite P (tablesOk_enteredAgain P hL hc huuid hunlock (h o)) ?_
            rw [enteredAgain_m_keysFileKey]
            exact fun hkey => hinfo _ (.entered o password u hu hkey)
          exact Held.load P hL hc ((held_enteredAgain_self P huuid hunlock).of_sameTables P
            (sameTables_afterWrite P o _)) htables (readsOwn_of_step P hversion hu hcan)
  | logout o =>
      rcases logout_ends P o w with ⟨hm, hw⟩ | ⟨m, hm, hcan, hw⟩ | ⟨m, hm, hcan, hw⟩
      · rw [hw]
        exact hheld
      · rw [hw]
        exact fun haddr => (hcan (hlogout haddr m hm)).elim
      · rw [hw]
        exact fun haddr => (haddr rfl).elim
  | generateAddress o d => exact hcold (sameSession_cold P trivial)
  | loadAddresses o uuids => exact hcold (sameSession_cold P trivial)
  | getAddresses o uuids => exact hcold (sameSession_cold P trivial)

end Step

end TronWallet.Analysis
