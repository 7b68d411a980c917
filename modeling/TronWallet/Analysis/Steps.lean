import TronWallet.Analysis.Accounts

/-!
# What each action of a run can do

One description for each operation of the account manager: `LogoutEnds`, `CreateEnds` and
`LoginEnds` list the ways a call can end, each with the state it leaves.  Nothing else
can happen (`logout_ends`, `createAccount_ends`, `login_ends`), so an invariant is
preserved by an operation when it is preserved in each of the cases listed.
-/

set_option autoImplicit false

namespace TronWallet.Analysis

open TronWallet.Lib TronWallet.Model

variable (P : Platform)

/-! ## The key manager of a wallet -/

/-- The key manager, opened if it was not. -/
def manager (o : Order) (w : Wallet) : KeyManager :=
  w.m_keyManager.getD (KeyManager.new o w.host)

/-- The key manager, opened if it was not, with the files. -/
def opened (o : Order) (w : Wallet) : Opened := { m := manager o w, host := w.host }

/-- The wallet with another key manager and other files. -/
def withOpened (w : Wallet) (s : Opened) : Wallet :=
  { w with m_keyManager := some s.m, host := s.host }

/-- The key manager of a wallet that has one. -/
theorem manager_of_some {o : Order} {w : Wallet} {m : KeyManager} (h : w.m_keyManager = some m) :
    manager o w = m := by
  unfold manager
  rw [h]
  rfl

/-- A wallet with a key manager is not changed by opening it. -/
theorem withOpened_opened_of_some {o : Order} {w : Wallet} {m : KeyManager}
    (h : w.m_keyManager = some m) : withOpened w (opened o w) = w := by
  unfold withOpened opened
  rw [manager_of_some h]
  cases w
  cases h
  rfl

/-- `OpenWallet` always returns, with a key manager. -/
theorem openWallet_apply (o : Order) (w : Wallet) :
    Wallet.openWallet o w = .ok () (withOpened w (opened o w)) := by
  unfold Wallet.openWallet
  rw [Exec.modify_apply]
  cases h : w.m_keyManager with
  | none =>
      unfold withOpened opened manager
      rw [h]
      rfl
  | some m => rw [withOpened_opened_of_some h]

/-- A call of the key manager in a wallet that is open. -/
theorem withKeyManager_apply {α : Type} (f : Exec Opened α) (w : Wallet) (s : Opened) :
    Wallet.withKeyManager f (withOpened w s) = match f s with
      | .ok a s' => .ok a (withOpened w s')
      | .error e s' => .error e (withOpened w s') := rfl

/-- What a call of the key manager leaves in a wallet that is open. -/
theorem finalState_withKeyManager {α : Type} (f : Exec Opened α) (w : Wallet) (s : Opened) :
    Exec.finalState (Wallet.withKeyManager f) (withOpened w s) =
      withOpened w (Exec.finalState f s) := by
  unfold Exec.finalState
  rw [withKeyManager_apply]
  cases f s <;> rfl

/-- A question to the key manager in a wallet that is open. -/
theorem askKeyManager_apply {α : Type} (f : KeyManager → Except Exn α) (w : Wallet) (s : Opened) :
    Wallet.askKeyManager f (withOpened w s) = Exec.ofExcept (f s.m) (withOpened w s) := by
  simp only [Wallet.askKeyManager, Exec.bind_apply, Exec.get_apply]
  rfl

/-- The files of the key manager are those of the wallet. -/
@[simp] theorem withOpened_host (w : Wallet) (s : Opened) : (withOpened w s).host = s.host := rfl

/-- A wallet that is open has its key manager. -/
@[simp] theorem withOpened_m_keyManager (w : Wallet) (s : Opened) :
    (withOpened w s).m_keyManager = some s.m := rfl

/-- Opening the key manager leaves the account. -/
@[simp] theorem withOpened_Address (w : Wallet) (s : Opened) :
    (withOpened w s).Address = w.Address := rfl

/-- Opening the key manager leaves the cold addresses. -/
@[simp] theorem withOpened_address_lookup (w : Wallet) (s : Opened) :
    (withOpened w s).address_lookup_ = w.address_lookup_ := rfl

/-- Opening the key manager leaves the cold keys. -/
@[simp] theorem withOpened_cached (w : Wallet) (s : Opened) :
    (withOpened w s).cached_ = w.cached_ := rfl

/-- The wallet with another account logged in. -/
def loggedIn (w : Wallet) (address : Bytes) : Wallet :=
  { w with address_pair_ := Wallet.addressPair P address }

/-- The account that is entered is the one logged in. -/
@[simp] theorem loggedIn_Address (w : Wallet) (address : Bytes) :
    (loggedIn P w address).Address = address := rfl

/-- Entering an account leaves the key manager. -/
@[simp] theorem loggedIn_m_keyManager (w : Wallet) (address : Bytes) :
    (loggedIn P w address).m_keyManager = w.m_keyManager := rfl

/-- Entering an account leaves the files. -/
@[simp] theorem loggedIn_host (w : Wallet) (address : Bytes) :
    (loggedIn P w address).host = w.host := rfl

/-- Entering an account leaves the cold addresses. -/
@[simp] theorem loggedIn_address_lookup (w : Wallet) (address : Bytes) :
    (loggedIn P w address).address_lookup_ = w.address_lookup_ := rfl

/-- Entering an account leaves the cold keys. -/
@[simp] theorem loggedIn_cached (w : Wallet) (address : Bytes) :
    (loggedIn P w address).cached_ = w.cached_ := rfl

/-! ## Logout -/

/-- The state in which `Logout` writes the keys file. -/
def forgotten (w : Wallet) (m : KeyManager) : Opened :=
  cleared (toAddress w.Address) { m := m, host := w.host }

/-- The ways `Logout` can end. -/
inductive LogoutEnds (o : Order) (w w' : Wallet) : Prop where
  | notOpen (hm : w.m_keyManager = none) (hw : w' = w)
  | threw (m : KeyManager) (hm : w.m_keyManager = some m) (hcan : ¬ CanWrite o (forgotten w m).m)
      (hw : w' = withOpened w (afterWrite P o (forgotten w m)))
  | done (m : KeyManager) (hm : w.m_keyManager = some m) (hcan : CanWrite o (forgotten w m).m)
      (hw : w' = { withOpened w (afterWrite P o (forgotten w m)) with address_pair_ := ([], []) })

/-- The ways `Logout` can end. -/
theorem logout_ends (o : Order) (w : Wallet) :
    LogoutEnds P o w (Wallet.step P w (.logout o)) := by
  unfold Wallet.step Exec.finalState Wallet.logout
  simp only [Exec.bind_apply, Exec.get_apply]
  cases hm : w.m_keyManager with
  | none =>
      refine .notOpen hm ?_
      unfold Wallet.withKeyManager
      rw [hm]
  | some m =>
      have hw : withOpened w { m := m, host := w.host } = w := by
        rw [show ({ m := m, host := w.host } : Opened) = opened Order.held w from by
          rw [opened, manager_of_some hm]]
        exact withOpened_opened_of_some hm
      have hrun := withKeyManager_apply (KeyManager.clear P o (toAddress w.Address)) w
        { m := m, host := w.host }
      rw [hw] at hrun
      rcases clear_ends P o (toAddress w.Address) { m := m, host := w.host } with
        ⟨hcan, u, h⟩ | ⟨hcan, e, h⟩
      · refine .done m hm hcan ?_
        rw [hrun, h]
        rfl
      · refine .threw m hm hcan ?_
        rw [hrun, h]
        rfl

/-! ## Creating an account -/

/-- The account an action creates, given the key pair `MakeKey` found. -/
def accountOf (k : KeyPair) (name password : Bytes) (d : CreateDraws) : Account :=
  ⟨k.m_secret, name, password, d.uuid, d.salt, d.iv⟩

/-- The address of the key pair is that of the account. -/
theorem makeKey_address {d : CreateDraws} {k : KeyPair} (name password : Bytes)
    (hk : Wallet.makeKey P d.seed d.rounds = .ok k) :
    k.m_address = (accountOf k name password d).address P :=
  congrArg KeyPair.m_address (makeKey_eq P hk)

/-- The ways `CreateAccount` can end. -/
inductive CreateEnds (o : Order) (name password : Bytes) (d : CreateDraws) (w w' : Wallet) :
    Prop where
  | noKey (e : Exn) (hk : Wallet.makeKey P d.seed d.rounds = .error e)
      (hw : w' = withOpened w (opened o w))
  | threw (k : KeyPair) (c : Account) (hk : Wallet.makeKey P d.seed d.rounds = .ok k)
      (hc : c = accountOf k name password d)
      (hcan : ¬ CanWrite o (imported P c (opened o w)).m)
      (hw : w' = withOpened w (afterWrite P o (imported P c (opened o w))))
  | existing (k : KeyPair) (c : Account) (hk : Wallet.makeKey P d.seed d.rounds = .ok k)
      (hc : c = accountOf k name password d)
      (hcan : CanWrite o (imported P c (opened o w)).m)
      (hexists : KeyManager.fileExists (afterWrite P o (imported P c (opened o w))).host = true)
      (hw : w' = loggedIn P (withOpened w (afterWrite P o (imported P c (opened o w))))
        (toTronAddress (c.address P)))
  | first (k : KeyPair) (c : Account) (hk : Wallet.makeKey P d.seed d.rounds = .ok k)
      (hc : c = accountOf k name password d)
      (hcan : CanWrite o (imported P c (opened o w)).m)
      (hexists : KeyManager.fileExists (afterWrite P o (imported P c (opened o w))).host = false)
      (hw : w' = loggedIn P (withOpened w
        (afterWriteKey P o (KeyManager.fileKey P password d.fileSalt.m_data)
          (prepared P password d.default d.fileSalt
            (afterWrite P o (imported P c (opened o w))))))
        (toTronAddress (c.address P)))

/-- The part of `CreateAccount` after the import: the account is logged in, and a keys file
is created when there is none. -/
theorem finalState_afterImport (o : Order) (password address : Bytes) (d : CreateDraws)
    (w : Wallet) (s : Opened) :
    Exec.finalState (do
        modify fun w => { w with address_pair_ := Wallet.addressPair P address }
        let w ← get
        if KeyManager.fileExists w.host = false then
          Wallet.withKeyManager (KeyManager.create P o password d.default d.fileSalt))
        (withOpened w s) =
      if KeyManager.fileExists s.host = false then
        loggedIn P (withOpened w
          (afterWriteKey P o (KeyManager.fileKey P password d.fileSalt.m_data)
            (prepared P password d.default d.fileSalt s))) address
      else loggedIn P (withOpened w s) address := by
  rw [Exec.finalState_modify_bind, Exec.finalState_get_bind]
  by_cases hexists : KeyManager.fileExists s.host = false
  · rw [if_pos hexists]
    have hcreate := finalState_withKeyManager
      (KeyManager.create P o password d.default d.fileSalt) (loggedIn P w address) s
    rw [(create_ends P o password d.default d.fileSalt s).finalState_eq] at hcreate
    simp only [withOpened_host, hexists, if_true]
    exact hcreate
  · rw [if_neg hexists]
    simp only [withOpened_host, hexists]
    rfl

/-- The ways `CreateAccount` can end. -/
theorem createAccount_ends (o : Order) (name password : Bytes) (d : CreateDraws) (w : Wallet) :
    CreateEnds P o name password d w (Wallet.step P w (.createAccount o name password d)) := by
  unfold Wallet.step Wallet.createAccount
  simp only
  rw [Exec.finalState_bind, openWallet_apply]
  simp only
  rw [Exec.finalState_ofExcept_bind]
  cases hk : Wallet.makeKey P d.seed d.rounds with
  | error e => exact .noKey e hk rfl
  | ok k =>
      obtain ⟨c, hc⟩ : ∃ c, c = accountOf k name password d := ⟨_, rfl⟩
      have haddr : k.m_address = c.address P := by
        rw [hc]
        exact makeKey_address P name password hk
      have himport := import_ends P o c (opened o w)
      have hcall : KeyManager.import P o k.m_secret name password [] d.uuid d.salt d.iv =
          KeyManager.import P o c.secret c.name c.password [] c.uuid c.salt c.iv := by
        rw [hc]
        rfl
      simp only
      rw [Exec.finalState_bind, withKeyManager_apply, hcall, haddr]
      rcases himport with ⟨hcan, u, h⟩ | ⟨hcan, e, h⟩
      · rw [h]
        simp only
        rw [finalState_afterImport]
        by_cases hexists : KeyManager.fileExists
            (afterWrite P o (imported P c (opened o w))).host = false
        · rw [if_pos hexists]
          exact .first k c hk hc hcan hexists rfl
        · rw [if_neg hexists]
          exact .existing k c hk hc hcan (by simpa using hexists) rfl
      · rw [h]
        exact .threw k c hk hc hcan rfl

/-! ## Login -/

/-- The first key, in the order of the store, that the store gives up for a password. -/
def firstUnlocked (o : Order) (m : KeyManager) (password : Bytes) : Option H128 :=
  (m.m_store.keys o).find? fun u => unlock P m.m_store u password ≠ []

/-- The key manager once the store has given up a key. -/
def entered (u : H128) (password : Bytes) (s : Opened) : Opened :=
  { s with m := { s.m with m_store := unlocked P s.m.m_store u password } }

/-- The state in which `importExisting` writes the keys file for the key found. -/
def enteredAgain (u : H128) (password : Bytes) (s : Opened) : Opened :=
  notedAgain P u [] password (unlock P s.m.m_store u password) (entered P u password s)

/-- Entering a key again touches no file. -/
@[simp] theorem enteredAgain_host (u : H128) (password : Bytes) (s : Opened) :
    (enteredAgain P u password s).host = s.host := rfl

/-- Entering a key again leaves the key of the keys file. -/
@[simp] theorem enteredAgain_m_keysFileKey (u : H128) (password : Bytes) (s : Opened) :
    (enteredAgain P u password s).m.m_keysFileKey = s.m.m_keysFileKey := by
  unfold enteredAgain
  rw [notedAgain_m_keysFileKey]
  rfl

/-- The address of a secret the store gave up. -/
def addressOf (secret : Bytes) : Address := (P.keyPair (FixedHash.ofBytes secret)).m_address

/-- The ways `Login` can end, with what it returns. -/
inductive LoginEnds (o : Order) (password : Bytes) (w : Wallet) :
    EStateM.Result Exn Wallet Bytes → Prop where
  | refused (err : Bytes) (herr : err ≠ [])
      (hnone : firstUnlocked P o (manager o w) password = none) :
      LoginEnds o password w (.ok err (withOpened w (opened o w)))
  | threw (e : Exn) (u : H128) (hu : firstUnlocked P o (manager o w) password = some u)
      (hcan : ¬ CanWrite o (enteredAgain P u password (opened o w)).m) :
      LoginEnds o password w
        (.error e (withOpened w (afterWrite P o (enteredAgain P u password (opened o w)))))
  | done (u : H128) (hu : firstUnlocked P o (manager o w) password = some u)
      (hcan : CanWrite o (enteredAgain P u password (opened o w)).m) :
      LoginEnds o password w
        (.ok [] (loggedIn P (withOpened w (Exec.finalState (KeyManager.load P password)
            (afterWrite P o (enteredAgain P u password (opened o w)))))
          (toTronAddress (addressOf P (unlock P (manager o w).m_store u password)))))

/-- The identifier noted for a key is that of its address. -/
theorem address_enteredAgain (u : H128) (password : Bytes) (s : Opened) :
    (enteredAgain P u password s).m.address u =
      addressOf P (unlock P s.m.m_store u password) := by
  simp [enteredAgain, notedAgain, KeyManager.address, KeyManager.noteLookup, addressOf]

/-- The loop of `Login` stops at the first key the store gives up. -/
theorem loginLoop_cases (o : Order) (password : Bytes) (w : Wallet) (s : Opened)
    (l : List H128) :
    (l.find? (fun u => unlock P s.m.m_store u password ≠ []) = none ∧
        Wallet.loginLoop P o password l (withOpened w s) = .ok [] (withOpened w s)) ∨
      ∃ u, l.find? (fun u => unlock P s.m.m_store u password ≠ []) = some u ∧
        ((¬ CanWrite o (enteredAgain P u password s).m ∧
            ∃ e, Wallet.loginLoop P o password l (withOpened w s) =
              .error e (withOpened w (afterWrite P o (enteredAgain P u password s)))) ∨
          (CanWrite o (enteredAgain P u password s).m ∧
            ∃ a, a = toTronAddress (addressOf P (unlock P s.m.m_store u password)) ∧
              Wallet.loginLoop P o password l (withOpened w s) =
                .ok a (loggedIn P
                  (withOpened w (afterWrite P o (enteredAgain P u password s))) a))) := by
  induction l with
  | nil => exact Or.inl ⟨rfl, rfl⟩
  | cons u l ih =>
      have hstep : Wallet.loginLoop P o password (u :: l) (withOpened w s) =
          (if unlock P s.m.m_store u password ≠ [] then (do
            Wallet.withKeyManager (KeyManager.importExisting P o u [] password [])
            let a ← Wallet.askKeyManager fun m => .ok (m.address u)
            let address := toTronAddress a
            modify fun w => { w with address_pair_ := Wallet.addressPair P address }
            return address)
          else Wallet.loginLoop P o password l) (withOpened w (entered P u password s)) := by
        simp only [Wallet.loginLoop, Exec.bind_apply, withKeyManager_apply, Exec.get_apply,
          secret_eq, Exec.ofExcept_ok, Exec.set_apply]
        rfl
      rw [hstep]
      by_cases hnil : unlock P s.m.m_store u password = []
      · have hsame : entered P u password s = s := by
          unfold entered
          rw [unlocked_of_eq_nil P hnil]
        have hfind : (u :: l).find? (fun u => unlock P s.m.m_store u password ≠ []) =
            l.find? fun u => unlock P s.m.m_store u password ≠ [] := by
          rw [List.find?_cons_of_neg]
          simpa using hnil
        rw [if_neg (by simpa using hnil), hsame, hfind]
        exact ih
      · refine Or.inr ⟨u, by rw [List.find?_cons_of_pos]; simpa using hnil, ?_⟩
        rw [if_pos hnil]
        have hcached : (entered P u password s).m.m_store.m_cached.lookup u =
            some (unlock P s.m.m_store u password) := unlocked_m_cached P hnil
        rcases importExisting_ends P o u [] password (entered P u password s) hcached hnil with
          ⟨hcan, v, h⟩ | ⟨hcan, e, h⟩
        · refine Or.inr ⟨hcan, _, rfl, ?_⟩
          have haddr := address_enteredAgain P u password s
          have htables := (sameTables_afterWrite P o (enteredAgain P u password s)).uuidLookup
          have hask : (afterWrite P o (enteredAgain P u password s)).m.address u =
              addressOf P (unlock P s.m.m_store u password) := by
            rw [← haddr]
            unfold KeyManager.address
            rw [htables]
          rw [Exec.bind_apply, withKeyManager_apply, h]
          simp only
          rw [Exec.bind_apply, askKeyManager_apply]
          simp only [Exec.ofExcept_ok]
          rw [show (afterWrite P o (notedAgain P u [] password (unlock P s.m.m_store u password)
            (entered P u password s))).m.address u =
              addressOf P (unlock P s.m.m_store u password) from hask]
          rfl
        · refine Or.inl ⟨hcan, e, ?_⟩
          rw [Exec.bind_apply, withKeyManager_apply, h]
          rfl

/-- The ways `Login` can end. -/
theorem login_ends (o : Order) (password : Bytes) (w : Wallet) :
    LoginEnds P o password w (Wallet.login P o password w) := by
  unfold Wallet.login
  rw [Exec.bind_apply, openWallet_apply]
  simp only
  rw [Exec.bind_apply, askKeyManager_apply]
  simp only [Exec.ofExcept_ok]
  by_cases hkeys : (opened o w).m.m_store.keys o = []
  · rw [if_pos hkeys]
    refine .refused Wallet.noAccountExist (by decide) ?_
    unfold firstUnlocked
    rw [show (manager o w).m_store.keys o = [] from hkeys]
    rfl
  · rw [if_neg hkeys, Exec.bind_apply]
    rcases loginLoop_cases P o password w (opened o w) ((opened o w).m.m_store.keys o) with
      ⟨hnone, h⟩ | ⟨u, hu, ⟨hcan, e, h⟩ | ⟨hcan, a, ha, h⟩⟩
    · rw [h]
      exact .refused Wallet.passwordNotRight (by decide) hnone
    · rw [h]
      exact .threw e u hu hcan
    · rw [h]
      have hne : a ≠ [] := by
        rw [ha]
        exact toTronAddress_ne_nil _
      subst ha
      simp only [if_neg hne]
      rw [Exec.bind_apply]
      rw [show loggedIn P (withOpened w (afterWrite P o (enteredAgain P u password (opened o w))))
          (toTronAddress (addressOf P (unlock P (opened o w).m.m_store u password))) =
        withOpened (loggedIn P w
          (toTronAddress (addressOf P (unlock P (opened o w).m.m_store u password))))
          (afterWrite P o (enteredAgain P u password (opened o w))) from rfl, withKeyManager_apply]
      have hload := LoginEnds.done (w := w) u hu hcan
      unfold Exec.finalState at hload
      cases hrun : KeyManager.load P password
          (afterWrite P o (enteredAgain P u password (opened o w))) with
      | ok b s =>
          rw [hrun] at hload
          exact hload
      | error e s =>
          unfold KeyManager.load Exec.catching at hrun
          split at hrun <;> cases hrun

/-- The ways `Login` can end, by the state alone. -/
inductive LoginLeaves (o : Order) (password : Bytes) (w w' : Wallet) : Prop where
  | refused (hnone : firstUnlocked P o (manager o w) password = none)
      (hw : w' = withOpened w (opened o w))
  | threw (u : H128) (hu : firstUnlocked P o (manager o w) password = some u)
      (hcan : ¬ CanWrite o (enteredAgain P u password (opened o w)).m)
      (hw : w' = withOpened w (afterWrite P o (enteredAgain P u password (opened o w))))
  | done (u : H128) (hu : firstUnlocked P o (manager o w) password = some u)
      (hcan : CanWrite o (enteredAgain P u password (opened o w)).m)
      (hw : w' = loggedIn P (withOpened w (Exec.finalState (KeyManager.load P password)
            (afterWrite P o (enteredAgain P u password (opened o w)))))
          (toTronAddress (addressOf P (unlock P (manager o w).m_store u password))))

/-- What a step of `Login` leaves. -/
theorem login_leaves (o : Order) (password : Bytes) (w : Wallet) :
    LoginLeaves P o password w (Wallet.step P w (.login o password)) := by
  have h := login_ends P o password w
  show LoginLeaves P o password w (Exec.finalState (Wallet.login P o password) w)
  unfold Exec.finalState
  generalize Wallet.login P o password w = r at h
  cases h with
  | refused err herr hnone => exact .refused hnone rfl
  | threw e u hu hcan => exact .threw u hu hcan rfl
  | done u hu hcan => exact .done u hu hcan rfl

/-! ## Who is logged in -/

/-- The address an action logs in, if it logs in one. -/
def enters (w : Wallet) : Action → Option Bytes
  | .createAccount o name password d =>
    match Wallet.makeKey P d.seed d.rounds with
    | .error _ => none
    | .ok k =>
      let c := accountOf k name password d
      if CanWrite o (imported P c (opened o w)).m then some (toTronAddress (c.address P)) else none
  | .login o password =>
    match firstUnlocked P o (manager o w) password with
    | none => none
    | some u =>
      if CanWrite o (enteredAgain P u password (opened o w)).m then
        some (toTronAddress (addressOf P (unlock P (manager o w).m_store u password)))
      else none
  | _ => none

/-- `CreateAccount` changes the account only if it enters one. -/
theorem address_createAccount (o : Order) (name password : Bytes) (d : CreateDraws) (w : Wallet) :
    (Wallet.step P w (.createAccount o name password d)).Address =
      (enters P w (.createAccount o name password d)).getD w.Address := by
  rcases createAccount_ends P o name password d w with
    ⟨e, hk, hw⟩ | ⟨k, c, hk, hc, hcan, hw⟩ | ⟨k, c, hk, hc, hcan, hexists, hw⟩ |
      ⟨k, c, hk, hc, hcan, hexists, hw⟩
  · rw [hw]
    simp [enters, hk]
  · subst hc
    rw [hw]
    simp [enters, hk, hcan]
  · subst hc
    rw [hw]
    simp [enters, hk, hcan]
  · subst hc
    rw [hw]
    simp [enters, hk, hcan]

/-- `Login` changes the account only if it enters one. -/
theorem address_login (o : Order) (password : Bytes) (w : Wallet) :
    (Wallet.step P w (.login o password)).Address =
      (enters P w (.login o password)).getD w.Address := by
  rcases login_leaves P o password w with ⟨hnone, hw⟩ | ⟨u, hu, hcan, hw⟩ | ⟨u, hu, hcan, hw⟩
  · rw [hw]
    simp [enters, hnone]
  · rw [hw]
    simp [enters, hu, hcan]
  · rw [hw]
    simp [enters, hu, hcan]

/-- `Logout` leaves the account or nobody. -/
theorem address_logout (o : Order) (w : Wallet) :
    (Wallet.step P w (.logout o)).Address = w.Address ∨
      (Wallet.step P w (.logout o)).Address = [] := by
  rcases logout_ends P o w with ⟨hm, hw⟩ | ⟨m, hm, hcan, hw⟩ | ⟨m, hm, hcan, hw⟩
  · exact Or.inl (by rw [hw])
  · exact Or.inl (by rw [hw]; rfl)
  · exact Or.inr (by rw [hw]; rfl)

end TronWallet.Analysis
