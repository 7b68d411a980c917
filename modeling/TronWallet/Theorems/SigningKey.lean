import TronWallet.Analysis.AccountRuns
import TronWallet.Model.Transaction
import TronWallet.Reference.Runs

/-!
# The key a transaction is signed with

While an account is logged in, the key manager leads from its address to its identifier,
and the store has the secret of that identifier in its cache.  Everything that logs an
account in puts both there; other accounts have other addresses and identifiers, and
loading the keys file replaces an identifier only by one that was written for the same
address.

`Logout` erases the address and empties the cache before it writes the keys file, and
forgets who is logged in only after that.  When the write throws, because the master
password is not known, the account is still logged in and its key is gone.
-/

set_option autoImplicit false

namespace TronWallet.Theorems

open TronWallet.Lib TronWallet.Model TronWallet.Analysis

variable (P : Platform)

/-- **The wallet holds the key of the address logged in**: `GetPrivate` returns a secret of
that address, and a transaction gets a signature under that secret for each contract. -/
def HoldsOwnKey (w : Wallet) : Prop :=
  w.Address ≠ [] → ∃ key : Secret,
    (∃ w', Wallet.getPrivate P (toAddress w.Address) w = .ok key w') ∧
      (P.keyPair key).m_address = toAddress w.Address ∧
        ∀ (M : Messages) (now : ℤ) (t : Transaction), ∃ w',
          signTransaction P M now t w = .ok
            (addSignatures P M key { t with raw_data := { t.raw_data with timestamp := now } }) w'

/-- The condition: an account that is created is a new one, a password that is not that of
a key file does not pass its authentication code, and no logout of an account throws. -/
def KeepsKeyStep (before : List Action) (w : Wallet) (a : Action) : Prop :=
  FreshStep P before w a ∧ MacStep P before w a ∧ LogoutWrites w a

instance (before : List Action) (w : Wallet) (a : Action) :
    Decidable (KeepsKeyStep P before w a) := by
  unfold KeepsKeyStep
  infer_instance

/-! ## From the tables to the signature -/

/-- A secret that is held is returned. -/
theorem getPrivate_of_held {w : Wallet} {m : KeyManager} {c : Account}
    (hm : w.m_keyManager = some m) (h : Held P c m) :
    ∃ w', Wallet.getPrivate P (c.address P) w = .ok c.secret w' := by
  have hstore : m.m_store.secret P c.uuid (m.getPassword c.uuid) =
      .ok (c.secret.m_data, m.m_store) := by
    unfold SecretStore.secret
    rw [h.cached]
  have hsecret : m.secret P (c.address P) = .ok (c.secret, { m with m_store := m.m_store }) := by
    unfold KeyManager.secret
    simp only [h.addr, hstore, bind, Except.bind, FixedHash.ofBytes_m_data]
  refine ⟨{ w with m_keyManager := some { m with m_store := m.m_store } }, ?_⟩
  unfold Wallet.getPrivate
  simp only [Exec.bind_apply, Exec.get_apply, hm, hsecret, Exec.ofExcept_ok, Exec.set_apply]
  rfl

/-- With the secret of the account logged in every transaction is signed under it. -/
theorem holdsOwnKey_of_held {L : List Account} {w : Wallet} (h : LoggedInHeld P L w) :
    HoldsOwnKey P w := by
  intro haddress
  obtain ⟨m, hm, c, -, hac, hheld⟩ := h haddress
  have hto : toAddress w.Address = c.address P := by rw [hac, toAddress_toTronAddress]
  obtain ⟨w', hget⟩ := getPrivate_of_held P hm hheld
  refine ⟨c.secret, ⟨w', by rw [hto]; exact hget⟩, hto.symm, fun M now t => ⟨w', ?_⟩⟩
  unfold signTransaction
  simp only [Exec.bind_apply, Exec.get_apply, haddress, if_false, hto, hget, m_data_ne_nil]
  rfl

/-! ## Every run -/

/-- What holds after each step of such a run. -/
structure KeyInvariant (before : List Action) (w : Wallet) : Prop where
  distinct : DistinctAccounts P (accountsOf P before)
  tables : ∀ o, TablesOk P (accountsOf P before) (fun _ _ => True) (opened o w)
  held : LoggedInHeld P (accountsOf P before) w

/-- The invariant holds before anything has been done. -/
theorem keyInvariant_empty : KeyInvariant P [] {} where
  distinct := distinctAccounts_nil P
  tables := tablesOk_empty P
  held h := (h rfl).elim

/-- A step that meets the condition keeps the invariant. -/
theorem keyInvariant_step {before : List Action} {w : Wallet} {a : Action}
    (h : KeyInvariant P before w) (hversion : VersionStep P before w a)
    (hG : KeepsKeyStep P before w a) : KeyInvariant P (before ++ [a]) (Wallet.step P w a) := by
  obtain ⟨hfresh, hmac, hlogout⟩ := hG
  have hL := distinctAccounts_step P h.distinct hfresh
  have hmem : ∀ c ∈ accountsOf P before, c ∈ accountsOf P (before ++ [a]) := by
    rw [accountsOf_append]
    exact fun c hc => List.mem_append_left _ hc
  have htables : ∀ o, TablesOk P (accountsOf P (before ++ [a])) (fun _ _ => True) (opened o w) :=
    fun o => (h.tables o).mono P hmem fun _ _ _ => trivial
  have hheld : LoggedInHeld P (accountsOf P (before ++ [a])) w := by
    intro haddress
    obtain ⟨m, hm, c, hc, hrest⟩ := h.held haddress
    exact ⟨m, hm, c, hmem c hc, hrest⟩
  exact ⟨hL, tables_step P hL htables hmac hversion fun _ _ _ _ _ => trivial,
    held_step P hL htables hheld hmac hversion (fun _ _ _ _ _ => trivial) hlogout⟩

/-- **The wallet always holds the key of the address logged in**, in a run in which no
logout throws. -/
theorem holdsOwnKey_run (as : List Action) (hversion : WrongKeyNotVersionOne P as)
    (hsteps : EveryStep (Wallet.step P) {} (KeepsKeyStep P) as) :
    HoldsOwnKey P (Wallet.run P as) := by
  have hboth : EveryStep (Wallet.step P) {}
      (fun before w a => VersionStep P before w a ∧ KeepsKeyStep P before w a) as :=
    EveryStep.and hversion hsteps
  exact holdsOwnKey_of_held P (EveryStep.invariant (I := KeyInvariant P) (keyInvariant_empty P)
    (fun done a h hG => keyInvariant_step P h hG.1 hG.2) hboth).held

/-- A second account is created in a later session, logs in with its own password, under
which the keys file does not load, and logs out. -/
def interruptedRun : List Action :=
  [Reference.create [1] [2] 1, .restart, Reference.create [5] [3] 3, .restart,
    Reference.enter [3], Reference.leave]

/-- The logout throws: the second account stays logged in, and has no key. -/
theorem ownKey_lost :
    EveryStep (Wallet.step Reference.reference) {} (FreshStep Reference.reference)
        interruptedRun ∧
      MacSound Reference.reference interruptedRun ∧
      WrongKeyNotVersionOne Reference.reference interruptedRun ∧
      ¬ HoldsOwnKey Reference.reference (Wallet.run Reference.reference interruptedRun) := by
  refine ⟨EveryStep.of_check (by decide), EveryStep.of_check (by decide),
    EveryStep.of_check (by decide +kernel), fun h => ?_⟩
  obtain ⟨key, ⟨w', hget⟩, -⟩ := h (by decide +kernel)
  have hnone : Exec.result? (Wallet.getPrivate Reference.reference
      (toAddress (Wallet.run Reference.reference interruptedRun).Address))
      (Wallet.run Reference.reference interruptedRun) = none := by decide +kernel
  rw [Exec.result?, hget] at hnone
  cases hnone

/-- The same accounts with one password: the second is logged in after a restart, and
later the first. -/
theorem holdsOwnKey_shared : HoldsOwnKey Reference.reference (Wallet.run Reference.reference
    [Reference.create [1] [2] 1, .restart, Reference.create [5] [2] 3, Reference.leave,
      .restart, Reference.enter [4], Reference.enter [2]]) :=
  holdsOwnKey_run Reference.reference _ (EveryStep.of_check (by decide +kernel))
    (EveryStep.of_check (by decide +kernel))

end TronWallet.Theorems
