import TronWallet.Analysis.AccountNames
import TronWallet.Reference.Runs

/-!
# The name of the account logged in

`CreateAccount` notes the name of an account, and the keys file lists it from then on if
there is a key to write the file under.  Two members lose it again.  `Login` notes every
account it enters under the empty name, and writes that name to the file when it has a
key; only a `load` that reads an older file restores the name.  `Logout` erases the
account from the file as well, when it has a key, so that no later `load` restores
anything.

What is restored is right: every name in memory and in the keys file is that of the
account with the address (`NameInvariant`), as long as no `Login` leaves the empty name
behind.
-/

set_option autoImplicit false

namespace TronWallet.Theorems

open TronWallet.Lib TronWallet.Model TronWallet.Analysis

variable (P : Platform)

/-! ## The property and the condition -/

/-- **Names survive sessions**: whenever an account is logged in, the name shown for it is
the one it was created with. -/
def NamesSurvive (as : List Action) : Prop :=
  ∀ before rest, as = before ++ rest → ∀ c ∈ accountsOf P before,
    (Wallet.run P before).Address = toTronAddress (c.address P) →
      Exec.result? Wallet.getAccountName (Wallet.run P before) = some c.name

/-- The name of an account is not lost in a step.  A `Login` that enters an account with a
name has no key to write the keys file under, and the file lists the account under the key
of the password; a `Logout` of an account with a name goes through. -/
def KeepsName (before : List Action) (w : Wallet) : Action → Prop
  | .login o password => ∀ c ∈ accountsOf P before,
      firstUnlocked P o (manager o w) password = some c.uuid → c.name = [] ∨
        ((manager o w).m_keysFileKey = 0 ∧ ListedUnder P password (c.address P) w.host)
  | .logout o => ∀ c ∈ accountsOf P before, w.Address = toTronAddress (c.address P) →
      c.name = [] ∨ ∀ m ∈ w.m_keyManager, CanWrite o (forgotten w m).m
  | _ => True

/-- A login is successful. -/
def LoginSucceeds (_ : List Action) (w : Wallet) : Action → Prop
  | .login o password => Exec.result? (Wallet.login P o password) w = some []
  | _ => True

instance (before : List Action) (w : Wallet) (a : Action) :
    Decidable (LoginSucceeds P before w a) :=
  match a with
  | .restart | .createAccount .. | .login .. | .logout .. | .generateAddress ..
  | .loadAddresses .. | .getAddresses .. => by unfold LoginSucceeds; infer_instance

/-- An account that is created is a new one, and a password or a key that is not the right
one does not read a file. -/
def SoundStep (before : List Action) (w : Wallet) (a : Action) : Prop :=
  FreshStep P before w a ∧ MacStep P before w a ∧ VersionStep P before w a

instance (before : List Action) (w : Wallet) (a : Action) :
    Decidable (SoundStep P before w a) := by
  unfold SoundStep
  infer_instance

/-- The condition of a step: it is sound, and no name is lost in it. -/
def NameStep (before : List Action) (w : Wallet) (a : Action) : Prop :=
  SoundStep P before w a ∧ KeepsName P before w a

/-! ## One step -/

section Step

variable {before : List Action} {w : Wallet} {a : Action}

/-- The key a login enters is in the store. -/
theorem mem_keys_of_firstUnlocked {o : Order} {m : KeyManager} {password : Bytes} {u : H128}
    (hu : firstUnlocked P o m password = some u) : u ∈ m.m_store.m_keys := by
  obtain ⟨⟨u', k⟩, hk, rfl⟩ := List.mem_map.mp (List.mem_of_find?_eq_some hu)
  exact AList.lookup_isSome.mp (by rw [(Order.mem_iterate o).mp hk]; rfl)

/-- The account a login enters keeps its name: it has none, or it is restored. -/
theorem account_entered {N : Address → KeyInfo → Prop} {o : Order} {password : Bytes} {u : H128}
    (h : TablesOk P (accountsOf P before) N (opened o w))
    (hmac : MacStep P before w (.login o password))
    (hkeeps : KeepsName P before w (.login o password))
    (hu : firstUnlocked P o (manager o w) password = some u) :
    ∃ c ∈ accountsOf P before, c.uuid = u ∧
      unlock P (manager o w).m_store u password = c.secret.m_data ∧ (c.name = [] ∨
        ((manager o w).m_keysFileKey = 0 ∧ ListedUnder P password (c.address P) w.host)) := by
  obtain ⟨c, hc, huuid, hunlock⟩ := firstUnlocked_eq_secret P h hmac hu
  exact ⟨c, hc, huuid, hunlock, hkeeps c hc (by rw [hu, huuid])⟩

section Login

variable {L : List Account} {c : Account} {o : Order} {password : Bytes} {s : Opened}
  (hL : DistinctAccounts P L) (hc : c ∈ L) (h : TablesOk P L (Named P L) s)
  (hunlock : unlock P s.m.m_store c.uuid password = c.secret.m_data)
  (hkeeps : c.name = [] ∨
    (s.m.m_keysFileKey = 0 ∧ ListedUnder P password (c.address P) s.host))
  (hreads : KeysFileReadsOwn P password (afterWrite P o (enteredAgain P c.uuid password s)).host)

include hL hc h hunlock hkeeps

/-- The tables once the account has been entered and the keys file written. -/
theorem tablesOk_entered (hnames : NamesOk P L s.m) :
    TablesOk P L (Named P L) (afterWrite P o (enteredAgain P c.uuid password s)) := by
  refine tablesOk_afterWrite P (tablesOk_enteredAgain P hL hc rfl hunlock h) fun hkey => ?_
  rw [enteredAgain_m_keysFileKey] at hkey
  exact namesOk_enteredAgain P hc hunlock (hkeeps.resolve_right fun hzero => hkey hzero.1) hnames

include hreads

/-- **A login leaves right names**: the empty name it notes is right, or the one in the
keys file replaces it. -/
theorem namesOk_entered_load (hnames : NamesOk P L s.m) (hstored : c.uuid ∈ s.m.m_store.m_keys) :
    NamesOk P L (Exec.finalState (KeyManager.load P password)
      (afterWrite P o (enteredAgain P c.uuid password s))).m := by
  have htables := tablesOk_entered P (o := o) hL hc h hunlock hkeeps hnames
  rcases hkeeps with hname | ⟨hkey, hlisted⟩
  · refine namesOk_load P htables hreads fun a info hinfo => ?_
    rw [(sameTables_afterWrite P o _).keyInfo] at hinfo
    exact namesOk_enteredAgain P hc hunlock hname hnames a info hinfo
  · -- Nothing is written before the file is loaded.
    have hwrite : afterWrite P o (enteredAgain P c.uuid password s) =
        enteredAgain P c.uuid password s := by
      unfold afterWrite
      rw [enteredAgain_m_keysFileKey, if_pos hkey]
    rw [hwrite] at htables hreads ⊢
    obtain ⟨k, hk⟩ := Option.isSome_iff_exists.mp (AList.lookup_isSome.mpr hstored)
    have hcontains : (enteredAgain P c.uuid password s).m.m_store.contains c.uuid = true := by
      have hkeys := encryptedKey_unlocked P s.m.m_store c.uuid password c.uuid
      rw [hk, Option.map_some] at hkeys
      obtain ⟨k', hk', -⟩ := Option.map_eq_some_iff.mp hkeys
      unfold SecretStore.contains
      rw [decide_eq_true_eq, ← AList.lookup_isSome,
        show (enteredAgain P c.uuid password s).m.m_store = unlocked P s.m.m_store c.uuid password
          from notedAgain_m_store P _ _ _ _ _, hk']
      rfl
    obtain ⟨info', hinfo', hright⟩ := load_restores P hL hc htables hreads hcontains hlisted
    obtain ⟨entry, -, hlookup⟩ := lookup_enteredAgain P password hunlock
    intro a info hinfo
    by_cases ha : a = c.address P
    · rw [ha, hinfo'] at hinfo
      cases hinfo
      rw [ha]
      exact hright
    · rcases load_keyInfo P htables hreads hinfo with hold | hnew
      · rw [hlookup a, if_neg ha] at hold
        exact hnames a info hold
      · exact hnew

omit hkeeps hreads in
/-- **A login leaves the empty name** when it has a key to write it under, or the file that is
loaded does not list the account. -/
theorem accountName_entered_load
    (hreads : KeysFileReadsOwn P password (afterWrite P o (enteredAgain P c.uuid password s)).host)
    (hcan : CanWrite o (enteredAgain P c.uuid password s).m)
    (hlost : ¬ (s.m.m_keysFileKey = 0 ∧ ListedUnder P password (c.address P) s.host)) :
    (Exec.finalState (KeyManager.load P password)
      (afterWrite P o (enteredAgain P c.uuid password s))).m.accountName (c.address P) = [] := by
  obtain ⟨entry, hempty, hlookup⟩ := lookup_enteredAgain P password hunlock
  have hself := hlookup (c.address P)
  rw [if_pos rfl] at hself
  have hwritten : (afterWrite P o (enteredAgain P c.uuid password s)).m.m_keyInfo.lookup
      (c.address P) = some entry := by
    rw [(sameTables_afterWrite P o _).keyInfo]
    exact hself
  suffices hall : ∀ info, (Exec.finalState (KeyManager.load P password)
      (afterWrite P o (enteredAgain P c.uuid password s))).m.m_keyInfo.lookup (c.address P) =
        some info → info.accountName = [] by
    unfold KeyManager.accountName
    split
    · exact hall _ ‹_›
    · rfl
  intro info hinfo
  by_cases hkey : s.m.m_keysFileKey = 0
  · -- The file is the one there was, and does not list the account.
    have hwrite : afterWrite P o (enteredAgain P c.uuid password s) =
        enteredAgain P c.uuid password s := by
      unfold afterWrite
      rw [enteredAgain_m_keysFileKey, if_pos hkey]
    rw [hwrite] at hreads hinfo
    rcases load_entry P (tablesOk_enteredAgain P hL hc rfl hunlock h).file hreads hinfo with
      hold | ⟨hlisted, -⟩
    · rw [hself] at hold
      cases hold
      exact hempty
    · exact (hlost ⟨hkey, hlisted⟩).elim
  · -- The file has just been written with the empty name.
    have hfile : FileOk P (fun i => i.1 = c.address P → i.2.2.accountName = [])
        (afterWrite P o (enteredAgain P c.uuid password s)).host := by
      have hkey' : (enteredAgain P c.uuid password s).m.m_keysFileKey ≠ 0 := by
        rw [enteredAgain_m_keysFileKey]
        exact hkey
      obtain ⟨⟨text, htext⟩, -⟩ := hcan.resolve_left hkey'
      unfold afterWrite
      rw [if_neg hkey']
      rcases afterWriteKey_host P o (enteredAgain P c.uuid password s).m.m_keysFileKey
        (enteredAgain P c.uuid password s) with ⟨e, herror, -⟩ | ⟨text', htext', hnew⟩
      · rw [htext] at herror
        cases herror
      · obtain ⟨heq, hsize⟩ := fileText_eq htext'
        rw [heq] at hsize hnew
        rw [hnew]
        refine Or.inr ⟨_, contentsOf o _, hsize, List.mem_cons_self, rfl, fun i hi ha => ?_⟩
        obtain ⟨⟨b, info'⟩, hmem, rfl⟩ := List.mem_map.mp hi
        have hinfo' := (Order.mem_iterate o).mp hmem
        rw [show b = c.address P from ha, hself] at hinfo'
        cases hinfo'
        exact hempty
    rcases load_entry P hfile hreads hinfo with hold | ⟨-, u, hname⟩
    · rw [hwritten] at hold
      cases hold
      exact hempty
    · exact hname rfl

/-- A login notes the account it enters. -/
theorem nameKnown_entered_load (hnames : NamesOk P L s.m) :
    NameKnown P c (Exec.finalState (KeyManager.load P password)
      (afterWrite P o (enteredAgain P c.uuid password s))).m := by
  have htables := tablesOk_entered P (o := o) hL hc h hunlock hkeeps hnames
  obtain ⟨entry, -, hlookup⟩ := lookup_enteredAgain P password hunlock
  refine Or.inr (load_keyInfo_isSome P htables hreads ?_)
  rw [(sameTables_afterWrite P o _).keyInfo, hlookup, if_pos rfl]
  rfl

end Login

/-- The key manager has information for the account logged in. -/
def LoggedInKnown (L : List Account) (w : Wallet) : Prop :=
  w.Address ≠ [] → ∃ m, w.m_keyManager = some m ∧ ∃ c ∈ L, w.Address = toTronAddress (c.address P) ∧
    NameKnown P c m

/-- What holds after each step of such a run. -/
structure NameInvariant (before : List Action) (w : Wallet) : Prop where
  distinct : DistinctAccounts P (accountsOf P before)
  tables : ∀ o, TablesOk P (accountsOf P before) (Named P (accountsOf P before)) (opened o w)
  names : ∀ o, NamesOk P (accountsOf P before) (manager o w)
  known : LoggedInKnown P (accountsOf P before) w

/-- What is written to the keys file in a step has right names. -/
theorem namesOk_written {s : Opened} (hnames : ∀ o, NamesOk P (accountsOf P (before ++ [a]))
      (manager o w)) (htables : ∀ o, TablesOk P (accountsOf P before)
      (Named P (accountsOf P before)) (opened o w)) (hmac : MacStep P before w a)
    (hkeeps : KeepsName P before w a) (hs : WritesFrom P w a s) :
    NamesOk P (accountsOf P (before ++ [a])) s.m := by
  cases hs with
  | imported o name password d k hk hkey =>
      exact namesOk_imported P (s := opened o w) (accountOf_mem P hk) (hnames o)
  | prepared o name password d k hk =>
      have hmem : accountOf k name password d ∈
          accountsOf P (before ++ [.createAccount o name password d]) := accountOf_mem P hk
      have himported := namesOk_imported P (s := opened o w) hmem (hnames o)
      exact himported.of_eq P (sameTables_afterWrite P o _).keyInfo
  | entered o password u hu hkey =>
      obtain ⟨c, hc, rfl, hunlock, hname⟩ := account_entered P (htables o) hmac hkeeps hu
      rw [accountsOf_concat_of_login] at hnames ⊢
      exact namesOk_enteredAgain P (s := opened o w) hc hunlock
        (hname.resolve_right fun hzero => hkey hzero.1) (hnames o)
  | forgotten o m hm hkey =>
      have hw := hnames o
      rw [manager_of_some hm] at hw
      exact namesOk_forgotten P hw

/-- **Each step** leaves right names only. -/
theorem names_step (hL : DistinctAccounts P (accountsOf P (before ++ [a])))
    (hnames : ∀ o, NamesOk P (accountsOf P (before ++ [a])) (manager o w))
    (htables : ∀ o, TablesOk P (accountsOf P (before ++ [a]))
      (Named P (accountsOf P (before ++ [a]))) (opened o w))
    (hmac : MacStep P before w a) (hversion : VersionStep P before w a)
    (hkeeps : KeepsName P before w a) :
    ∀ o, NamesOk P (accountsOf P (before ++ [a])) (manager o (Wallet.step P w a)) := by
  have hnew : ∀ (L : List Account) (o : Order) (host : Host),
      NamesOk P L (KeyManager.new o host) := by
    intro L o host x info hinfo
    rw [new_m_keyInfo] at hinfo
    cases hinfo
  have hcold : SameSession w (Wallet.step P w a) →
      ∀ o, NamesOk P (accountsOf P (before ++ [a])) (manager o (Wallet.step P w a)) := by
    intro hsame o
    rcases hsame.manager with heq | ⟨o', hnone, heq⟩
    · unfold manager
      rw [heq]
      cases hm : w.m_keyManager with
      | none => exact hnew _ o _
      | some m =>
          have hw := hnames o
          rw [manager_of_some hm] at hw
          exact hw
    · rw [manager_of_some heq]
      exact hnew _ o' w.host
  cases a with
  | restart => exact fun o => hnew _ o w.host
  | createAccount o name password d =>
      have himported : ∀ k, Wallet.makeKey P d.seed d.rounds = .ok k →
          NamesOk P (accountsOf P (before ++ [.createAccount o name password d]))
            (afterWrite P o (imported P (accountOf k name password d) (opened o w))).m :=
        fun k hk => (namesOk_imported P (s := opened o w) (accountOf_mem P hk) (hnames o)).of_eq P
          (sameTables_afterWrite P o _).keyInfo
      rcases createAccount_ends P o name password d w with
        ⟨e, hk, hw⟩ | ⟨k, c, hk, rfl, hcan, hw⟩ | ⟨k, c, hk, rfl, hcan, hexists, hw⟩ |
          ⟨k, c, hk, rfl, hcan, hexists, hw⟩
      · rw [hw]
        exact fun _ => hnames o
      · rw [hw]
        exact fun _ => himported k hk
      · rw [hw]
        exact fun _ => himported k hk
      · rw [hw]
        exact fun _ => (himported k hk).of_eq P (sameTables_afterWriteKey P o _ _).keyInfo
  | login o password =>
      rw [accountsOf_concat_of_login] at hL hnames htables ⊢
      rcases login_leaves P o password w with ⟨hnone, hw⟩ | ⟨u, hu, hcan, hw⟩ | ⟨u, hu, hcan, hw⟩
      · rw [hw]
        exact fun _ => hnames o
      · -- The write has thrown, so that there is a key, and the account has no name.
        obtain ⟨c, hc, rfl, hunlock, hname⟩ := account_entered P (htables o) hmac hkeeps hu
        have hkey : (manager o w).m_keysFileKey ≠ 0 := fun hzero =>
          hcan (Or.inl ((enteredAgain_m_keysFileKey P _ _ _).trans hzero))
        rw [hw]
        exact fun _ => (namesOk_enteredAgain P (s := opened o w) hc hunlock
          (hname.resolve_right fun hzero => hkey hzero.1) (hnames o)).of_eq P
          (sameTables_afterWrite P o _).keyInfo
      · obtain ⟨c, hc, rfl, hunlock, hname⟩ := account_entered P (htables o) hmac hkeeps hu
        rw [hw]
        exact fun _ => namesOk_entered_load P hL hc (htables o) hunlock hname
          (readsOwn_of_step P hversion hu hcan) (hnames o) (mem_keys_of_firstUnlocked P hu)
  | logout o =>
      have hforgotten : ∀ m, w.m_keyManager = some m →
          NamesOk P (accountsOf P (before ++ [.logout o])) (afterWrite P o (forgotten w m)).m := by
        intro m hm
        have hw := hnames o
        rw [manager_of_some hm] at hw
        exact (namesOk_forgotten P hw).of_eq P (sameTables_afterWrite P o _).keyInfo
      rcases logout_ends P o w with ⟨hm, hw⟩ | ⟨m, hm, hcan, hw⟩ | ⟨m, hm, hcan, hw⟩
      · rw [hw]
        exact hnames
      · rw [hw]
        exact fun _ => hforgotten m hm
      · rw [hw]
        exact fun _ => hforgotten m hm
  | generateAddress o d => exact hcold (sameSession_cold P trivial)
  | loadAddresses o uuids => exact hcold (sameSession_cold P trivial)
  | getAddresses o uuids => exact hcold (sameSession_cold P trivial)

/-- **Each step** leaves information for the account logged in. -/
theorem known_step (hL : DistinctAccounts P (accountsOf P (before ++ [a])))
    (hknown : LoggedInKnown P (accountsOf P (before ++ [a])) w)
    (hnames : ∀ o, NamesOk P (accountsOf P (before ++ [a])) (manager o w))
    (htables : ∀ o, TablesOk P (accountsOf P (before ++ [a]))
      (Named P (accountsOf P (before ++ [a]))) (opened o w))
    (hmac : MacStep P before w a) (hversion : VersionStep P before w a)
    (hkeeps : KeepsName P before w a) :
    LoggedInKnown P (accountsOf P (before ++ [a])) (Wallet.step P w a) := by
  have hstays : ∀ (s : Opened) (o : Order),
      (∀ c, NameKnown P c (manager o w) → NameKnown P c s.m) →
        LoggedInKnown P (accountsOf P (before ++ [a])) (withOpened w s) := by
    intro s o hkeep haddr
    obtain ⟨m, hm, c, hc, hac, hcm⟩ := hknown haddr
    refine ⟨s.m, rfl, c, hc, hac, hkeep c ?_⟩
    rw [manager_of_some hm]
    exact hcm
  have hcold : SameSession w (Wallet.step P w a) →
      LoggedInKnown P (accountsOf P (before ++ [a])) (Wallet.step P w a) := by
    intro hsame haddr
    rw [hsame.address] at haddr ⊢
    obtain ⟨m, hm, hc⟩ := hknown haddr
    rcases hsame.manager with heq | ⟨o', hnone, -⟩
    · exact ⟨m, heq.trans hm, hc⟩
    · rw [hnone] at hm
      cases hm
  cases a with
  | restart => exact fun haddr => (haddr rfl).elim
  | createAccount o name password d =>
      rcases createAccount_ends P o name password d w with
        ⟨e, hk, hw⟩ | ⟨k, c, hk, rfl, hcan, hw⟩ | ⟨k, c, hk, rfl, hcan, hexists, hw⟩ |
          ⟨k, c, hk, rfl, hcan, hexists, hw⟩
      · rw [hw]
        exact hstays _ o fun c hc => hc
      · rw [hw]
        exact hstays _ o fun c hc => nameKnown_insert P hc
          ((sameTables_afterWrite P o _).keyInfo.trans rfl)
      · rw [hw]
        exact fun _ => ⟨_, rfl, _, accountOf_mem P hk, rfl, (nameKnown_imported P).of_eq P
          (sameTables_afterWrite P o _).keyInfo⟩
      · rw [hw]
        exact fun _ => ⟨_, rfl, _, accountOf_mem P hk, rfl, (nameKnown_imported P).of_eq P
          ((sameTables_afterWriteKey P o _ _).keyInfo.trans
            (sameTables_afterWrite P o _).keyInfo)⟩
  | login o password =>
      rw [accountsOf_concat_of_login] at hL hnames htables hstays ⊢
      rcases login_leaves P o password w with ⟨hnone, hw⟩ | ⟨u, hu, hcan, hw⟩ | ⟨u, hu, hcan, hw⟩
      · rw [hw]
        exact hstays _ o fun c hc => hc
      · rw [hw]
        exact hstays _ o fun c hc => nameKnown_insert P hc
          ((sameTables_afterWrite P o _).keyInfo.trans (notedAgain_m_keyInfo P _ _ _ _ _))
      · obtain ⟨c, hc, rfl, hunlock, hname⟩ := account_entered P (htables o) hmac hkeeps hu
        have hunlock' : unlock P (manager o w).m_store c.uuid password = c.secret.m_data := hunlock
        rw [hw]
        refine fun _ => ⟨_, rfl, c, hc, ?_, ?_⟩
        · rw [loggedIn_Address, hunlock', addressOf_secret]
        · exact nameKnown_entered_load P hL hc (htables o) hunlock hname
            (readsOwn_of_step P hversion hu hcan) (hnames o)
  | logout o =>
      rcases logout_ends P o w with ⟨hm, hw⟩ | ⟨m, hm, hcan, hw⟩ | ⟨m, hm, hcan, hw⟩
      · rw [hw]
        exact hknown
      · rw [hw]
        intro haddr
        obtain ⟨m', hm', c, hc, hac, -⟩ := hknown haddr
        have hc' : c ∈ accountsOf P before := by
          rw [accountsOf_append, accountsOf_singleton] at hc
          simpa [createdBy] using hc
        refine ⟨_, rfl, c, hc, hac, Or.inl ((hkeeps c hc' hac).resolve_right fun h => ?_)⟩
        exact hcan (h m hm)
      · rw [hw]
        exact fun haddr => (haddr rfl).elim
  | generateAddress o d => exact hcold (sameSession_cold P trivial)
  | loadAddresses o uuids => exact hcold (sameSession_cold P trivial)
  | getAddresses o uuids => exact hcold (sameSession_cold P trivial)

/-- **Each step** keeps every name right. -/
theorem nameInvariant_step (h : NameInvariant P before w) (hG : NameStep P before w a) :
    NameInvariant P (before ++ [a]) (Wallet.step P w a) := by
  obtain ⟨⟨hfresh, hmac, hversion⟩, hkeeps⟩ := hG
  have hL := distinctAccounts_step P h.distinct hfresh
  have hmem : ∀ c ∈ accountsOf P before, c ∈ accountsOf P (before ++ [a]) := by
    rw [accountsOf_append]
    exact fun c hc => List.mem_append_left _ hc
  have hnames : ∀ o, NamesOk P (accountsOf P (before ++ [a])) (manager o w) :=
    fun o x info hinfo => (h.names o x info hinfo).mono P hmem
  have htables : ∀ o, TablesOk P (accountsOf P (before ++ [a]))
      (Named P (accountsOf P (before ++ [a]))) (opened o w) :=
    fun o => (h.tables o).mono P hmem fun _ _ hnamed => hnamed.mono P hmem
  have hknown : LoggedInKnown P (accountsOf P (before ++ [a])) w := by
    intro haddr
    obtain ⟨m, hm, c, hc, hrest⟩ := h.known haddr
    exact ⟨m, hm, c, hmem c hc, hrest⟩
  have hwritten : ∀ s, WritesFrom P w a s → NamesOk P (accountsOf P (before ++ [a])) s.m :=
    fun s hs => namesOk_written P hnames h.tables hmac hkeeps hs
  exact ⟨hL, tables_step P hL htables hmac hversion hwritten,
    names_step P hL hnames htables hmac hversion hkeeps,
    known_step P hL hknown hnames htables hmac hversion hkeeps⟩

end Step

/-! ## Every run -/

/-- The invariant holds before anything has been done. -/
theorem nameInvariant_empty : NameInvariant P [] {} where
  distinct := distinctAccounts_nil P
  tables := tablesOk_empty P
  names o x info hinfo := by
    rw [show manager o {} = KeyManager.new o {} from rfl, new_m_keyInfo] at hinfo
    cases hinfo
  known h := (h rfl).elim

/-- The name shown is the one noted for the address logged in. -/
theorem getAccountName_result {w : Wallet} {m : KeyManager} (hm : w.m_keyManager = some m)
    (hne : w.Address ≠ []) :
    Exec.result? Wallet.getAccountName w = some (m.accountName (toAddress w.Address)) := by
  unfold Wallet.getAccountName Wallet.askKeyManager
  simp only [Exec.result?, Exec.bind_apply, Exec.get_apply, hne, if_false, hm, Exec.ofExcept_ok]

/-- Where the names are right and the account logged in is known, its name is its own. -/
theorem getAccountName_eq {before : List Action} {w : Wallet} (h : NameInvariant P before w)
    {c : Account} (hc : c ∈ accountsOf P before) (haddr : w.Address = toTronAddress (c.address P)) :
    Exec.result? Wallet.getAccountName w = some c.name := by
  have hne : w.Address ≠ [] := by
    rw [haddr]
    exact toTronAddress_ne_nil _
  obtain ⟨m, hm, c', hc', haddr', hknown⟩ := h.known hne
  have hsame : c' = c := by
    refine h.distinct.address c' hc' c hc ?_
    rw [← toAddress_toTronAddress (c'.address P), ← haddr', haddr, toAddress_toTronAddress]
  rw [hsame] at hknown
  have hnames := h.names Order.held
  rw [manager_of_some hm] at hnames
  rw [getAccountName_result hm hne, haddr, toAddress_toTronAddress,
    accountName_eq P h.distinct hc hnames hknown]

/-- **Names survive sessions** in a run in which no step loses one. -/
theorem namesSurvive (as : List Action) (hsteps : EveryStep (Wallet.step P) {} (NameStep P) as) :
    NamesSurvive P as := by
  intro before rest has c hc haddr
  rw [has] at hsteps
  have hinv := EveryStep.invariant (I := NameInvariant P) (nameInvariant_empty P)
    (fun done a h hG => nameInvariant_step P h hG) hsteps.of_append
  exact getAccountName_eq P hinv hc haddr

/-- A login finds the accounts it enters in contents that the keys file has. -/
theorem keepsName_of_listed {before : List Action} {w : Wallet} {o : Order} {password : Bytes}
    (f : KeysFile) (h : (manager o w).m_keysFileKey = 0 ∧ f.encode.length ≤ vectorMaxSize ∧
      w.host.keys = P.encryptSymNoAuth (KeyManager.fileKey P password w.host.salt) 0 f.encode ∧
        ∀ c ∈ accountsOf P before, firstUnlocked P o (manager o w) password = some c.uuid →
          ∃ i ∈ f.infos, i.1 = c.address P) : KeepsName P before w (.login o password) := by
  obtain ⟨hkey, hsize, hkeys, hlisted⟩ := h
  exact fun c hc hu => Or.inr ⟨hkey, f, hsize, hkeys, hlisted c hc hu⟩

/-- An account is created, logs out and logs in again. -/
def forgottenRun : List Action :=
  [Reference.create [1] [2] 1, Reference.leave, Reference.enter [2]]

/-- The account of that run. -/
def firstAccount : Account :=
  ⟨Reference.smallSecret 1, [1], [2], Reference.repeated 16 1, Reference.repeated 32 1,
    Reference.repeated 16 101⟩

/-- The login succeeds, and the name is gone. -/
theorem name_forgotten :
    EveryStep (Wallet.step Reference.reference) {} (SoundStep Reference.reference)
        forgottenRun ∧
      EveryStep (Wallet.step Reference.reference) {} (LoginSucceeds Reference.reference)
        forgottenRun ∧
      ¬ NamesSurvive Reference.reference forgottenRun := by
  have hsteps : EveryStep (Wallet.step Reference.reference) {}
      (fun before w a => SoundStep Reference.reference before w a ∧
        LoginSucceeds Reference.reference before w a) forgottenRun :=
    EveryStep.of_check (by decide +kernel)
  refine ⟨hsteps.mono fun _ _ _ hstep => hstep.1, hsteps.mono fun _ _ _ hstep => hstep.2,
    fun h => ?_⟩
  -- The run is evaluated once for all that is asked about its end.
  have hend : firstAccount ∈ accountsOf Reference.reference forgottenRun ∧
      (Wallet.run Reference.reference forgottenRun).Address =
        toTronAddress (firstAccount.address Reference.reference) ∧
      Exec.result? Wallet.getAccountName (Wallet.run Reference.reference forgottenRun) ≠
        some firstAccount.name := by decide +kernel
  obtain ⟨hmem, haddress, hother⟩ := hend
  exact hother (h forgottenRun [] (List.append_nil _).symm firstAccount hmem haddress)

/-- The keys file of an account that has just been created. -/
def oneName : KeysFile := contentsOf Order.held
  (manager Order.held (Wallet.run Reference.reference [Reference.create [1] [2] 1]))

/-- After a restart the keys file gives the account its name back. -/
theorem namesSurvive_restarted : NamesSurvive Reference.reference
    ([Reference.create [1] [2] 1, .restart] ++ [Reference.enter [2]]) := by
  have hlogin : KeepsName Reference.reference [Reference.create [1] [2] 1, .restart]
      (Wallet.run Reference.reference [Reference.create [1] [2] 1, .restart])
      (Reference.enter [2]) := keepsName_of_listed Reference.reference oneName (by decide +kernel)
  have hstart : EveryStep (Wallet.step Reference.reference) {} (KeepsName Reference.reference)
      [Reference.create [1] [2] 1, .restart] := (EveryStep.nil.concat trivial).concat trivial
  exact namesSurvive Reference.reference _ (EveryStep.and (EveryStep.of_check (by decide +kernel))
    (hstart.concat hlogin))

/-! ## The condition is exact -/

/-- A successful login has found a key, and noting it goes through. -/
theorem entered_of_login {o : Order} {password : Bytes} {w : Wallet}
    (h : Exec.result? (Wallet.login P o password) w = some []) :
    ∃ u, firstUnlocked P o (manager o w) password = some u ∧
      CanWrite o (enteredAgain P u password (opened o w)).m := by
  have hends := login_ends P o password w
  unfold Exec.result? at h
  generalize Wallet.login P o password w = r at hends h
  cases hends with
  | refused err herr hnone =>
      cases h
      exact (herr rfl).elim
  | threw e u hu hcan => cases h
  | done u hu hcan => exact ⟨u, hu, hcan⟩

/-- When the name shown after a step is still right, the step has met the condition. -/
theorem keepsName_of_shown {before : List Action} {w : Wallet} {a : Action}
    (h : NameInvariant P before w) (hmac : MacStep P before w a)
    (hversion : VersionStep P before w a) (hlogin : LoginSucceeds P before w a)
    (hshown : ∀ c ∈ accountsOf P (before ++ [a]),
      (Wallet.step P w a).Address = toTronAddress (c.address P) →
        Exec.result? Wallet.getAccountName (Wallet.step P w a) = some c.name) :
    KeepsName P before w a := by
  cases a with
  | login o password =>
      intro c hc hu
      rw [accountsOf_concat_of_login] at hshown
      rw [or_iff_not_imp_right]
      intro hlost
      obtain ⟨u, hu', hcan⟩ := entered_of_login P hlogin
      rw [hu] at hu'
      cases hu'
      obtain ⟨c', hc', huuid, hunlock⟩ := firstUnlocked_eq_secret P (h.tables o) hmac hu
      rw [h.distinct.uuid c' hc' c hc huuid] at hunlock
      have hread := readsOwn_of_step P hversion hu hcan
      rcases login_leaves P o password w with ⟨hnone, hw⟩ | ⟨u, hu', hnot, hw⟩ | ⟨u, hu', -, hw⟩
      · rw [hu] at hnone
        cases hnone
      · rw [hu] at hu'
        cases hu'
        exact (hnot hcan).elim
      · rw [hu] at hu'
        cases hu'
        have haddr : (Wallet.step P w (.login o password)).Address =
            toTronAddress (c.address P) := by
          rw [hw, loggedIn_Address,
            show unlock P (manager o w).m_store c.uuid password = c.secret.m_data from hunlock,
            addressOf_secret]
        have hname := hshown c hc haddr
        rw [getAccountName_result (by rw [hw]; rfl) (by rw [haddr]; exact toTronAddress_ne_nil _),
          haddr, toAddress_toTronAddress] at hname
        have hempty :=
          accountName_entered_load P h.distinct hc (h.tables o) hunlock hread hcan hlost
        exact (Option.some.inj hname).symm.trans hempty
  | logout o =>
      intro c hc haddr
      rw [or_iff_not_imp_right]
      intro hnot
      rcases logout_ends P o w with ⟨hm, hw⟩ | ⟨m, hm, hcan, hw⟩ | ⟨m, hm, hcan, hw⟩
      · refine (hnot fun m hm' => ?_).elim
        rw [hm] at hm'
        cases hm'
      · have haddr' : (Wallet.step P w (.logout o)).Address = toTronAddress (c.address P) := by
          rw [hw]
          exact haddr
        have hc' : c ∈ accountsOf P (before ++ [.logout o]) := by
          rw [accountsOf_append]
          exact List.mem_append_left _ hc
        have hname := hshown c hc' haddr'
        rw [getAccountName_result (by rw [hw]; rfl) (by rw [haddr']; exact toTronAddress_ne_nil _),
          haddr', toAddress_toTronAddress] at hname
        -- The entry of the account has been erased.
        have herased : (afterWrite P o (forgotten w m)).m.m_keyInfo.lookup (c.address P) =
            none := by
          rw [(sameTables_afterWrite P o _).keyInfo,
            show (forgotten w m).m.m_keyInfo = m.m_keyInfo.erase (toAddress w.Address) from rfl,
            haddr, toAddress_toTronAddress, UnorderedMap.lookup_erase_eq, if_pos rfl]
        have hempty : (afterWrite P o (forgotten w m)).m.accountName (c.address P) = [] := by
          unfold KeyManager.accountName
          rw [herased]
        exact (Option.some.inj hname).symm.trans hempty
      · refine (hnot fun m' hm' => ?_).elim
        rw [hm] at hm'
        cases hm'
        exact hcan
  | _ => trivial

/-- **No weaker condition will do**: in a run whose logins succeed, names survive only when
no step loses one. -/
theorem keepsName_of_namesSurvive (as : List Action)
    (hsound : EveryStep (Wallet.step P) {} (SoundStep P) as)
    (hlogins : EveryStep (Wallet.step P) {} (LoginSucceeds P) as) (h : NamesSurvive P as) :
    EveryStep (Wallet.step P) {} (KeepsName P) as := by
  induction as using List.reverseRecOn with
  | nil => exact EveryStep.nil
  | append_singleton as a ih =>
      have hkeeps := ih hsound.of_append hlogins.of_append fun before rest has =>
        h before (rest ++ [a]) (by rw [has, List.append_assoc])
      have hinv := EveryStep.invariant (I := NameInvariant P) (nameInvariant_empty P)
        (fun done a h hG => nameInvariant_step P h hG) (EveryStep.and hsound.of_append hkeeps)
      obtain ⟨-, hmac, hversion⟩ := hsound.at_step
      refine hkeeps.concat (keepsName_of_shown P hinv hmac hversion hlogins.at_step ?_)
      have hshown := h (as ++ [a]) [] (List.append_nil _).symm
      rw [Wallet.run, runFrom_concat] at hshown
      exact hshown

end TronWallet.Theorems
