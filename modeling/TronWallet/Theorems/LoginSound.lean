import TronWallet.Analysis.Stores
import TronWallet.Reference.Runs

/-!
# What a successful login says about the password

`Login` takes the first key the store gives up, and the store gives up a key it has cached
whatever the password.  So its answer is right exactly as long as the first key that is
cached or decrypts under the password is one that may be logged in with it: `LoginSafe` is
that condition on the state before, for one password, and `loginCorrect_iff` says that it
is exact in every state a run can reach.
-/

set_option autoImplicit false

namespace TronWallet.Theorems

open TronWallet.Lib TronWallet.Model TronWallet.Analysis

variable (P : Platform)

/-- A key file decrypts under a password. -/
def Opens (p : Bytes) (k : EncryptedKey) : Prop := SecretStore.decrypt P k.encryptedKey p ≠ []

instance (p : Bytes) (k : EncryptedKey) : Decidable (Opens P p k) := by
  unfold Opens
  infer_instance

/-- **Login is sound and complete**, in a state and for a password: it succeeds exactly when
a key file decrypts under the password, and then logs in the address of such a key. -/
structure LoginCorrect (o : Order) (p : Bytes) (w : Wallet) : Prop where
  succeeds : Exec.result? (Wallet.login P o p) w = some [] ↔
    ∃ e ∈ UnorderedMap.pairs w.host.accountDir, Opens P p e.2
  address : Exec.result? (Wallet.login P o p) w = some [] →
    ∃ e ∈ UnorderedMap.pairs w.host.accountDir, Opens P p e.2 ∧
      (Exec.finalState (Wallet.login P o p) w).Address =
        toTronAddress (addressOf P (SecretStore.decrypt P e.2.encryptedKey p))

/-- The condition: the first key that is cached or decrypts under the password, if there is
one, has the address of a key file that decrypts under it; but when the keys file cannot
be written for that key, no key file decrypts under the password. -/
def LoginSafe (o : Order) (p : Bytes) (w : Wallet) : Prop :=
  ∀ u ∈ firstUnlocked P o (manager o w) p,
    if CanWrite o (enteredAgain P u p (opened o w)).m then
      ∃ e ∈ UnorderedMap.pairs w.host.accountDir, Opens P p e.2 ∧
        addressOf P (SecretStore.decrypt P e.2.encryptedKey p) =
          addressOf P (unlock P (manager o w).m_store u p)
    else ∀ e ∈ UnorderedMap.pairs w.host.accountDir, ¬ Opens P p e.2

/-- No password is taken for a key file when the store gives up nothing. -/
theorem not_opens {o : Order} {p : Bytes} {w : Wallet} (h : WalletSync w)
    (hnone : firstUnlocked P o (manager o w) p = none) :
    ∀ e ∈ UnorderedMap.pairs w.host.accountDir, ¬ Opens P p e.2 := by
  rintro ⟨u, k⟩ he hopens
  exact hopens (not_opens_of_firstUnlocked P (h o) hnone u k (UnorderedMap.mem_pairs.mp he))

/-- **Login is right exactly under the condition**, in every state a run reaches and for
every password. -/
theorem loginCorrect_iff (as : List Action) (o : Order) (p : Bytes) :
    LoginCorrect P o p (Wallet.run P as) ↔ LoginSafe P o p (Wallet.run P as) := by
  have hsync := walletSync_run P as
  generalize Wallet.run P as = w at hsync ⊢
  have hends := login_ends P o p w
  generalize hrun : Wallet.login P o p w = r at hends
  cases hends with
  | refused err herr hnone =>
      have hresult := Exec.result?_of_ok hrun
      refine ⟨fun _ u hu => ?_, fun _ => ⟨?_, ?_⟩⟩
      · rw [hnone] at hu
        cases hu
      · rw [hresult]
        refine ⟨fun h => (herr (Option.some.inj h)).elim, ?_⟩
        rintro ⟨e, he, hopens⟩
        exact (not_opens P hsync hnone e he hopens).elim
      · rw [hresult]
        exact fun h => (herr (Option.some.inj h)).elim
  | threw e u hu hcan =>
      have hresult : Exec.result? (Wallet.login P o p) w = none := by
        unfold Exec.result?
        rw [hrun]
      refine ⟨fun h u' hu' => ?_, fun h => ⟨?_, ?_⟩⟩
      · rw [hu] at hu'
        cases hu'
        rw [if_neg hcan]
        intro e he hopens
        have := h.succeeds.mpr ⟨e, he, hopens⟩
        rw [hresult] at this
        cases this
      · have hsafe := h u hu
        rw [if_neg hcan] at hsafe
        rw [hresult]
        refine ⟨fun h => (Option.some_ne_none _ h.symm).elim, ?_⟩
        rintro ⟨e, he, hopens⟩
        exact (hsafe e he hopens).elim
      · rw [hresult]
        exact fun h => (Option.some_ne_none _ h.symm).elim
  | done u hu hcan =>
      have hresult := Exec.result?_of_ok hrun
      have hstate := Exec.finalState_of_ok hrun
      refine ⟨fun h u' hu' => ?_, fun h => ?_⟩
      · rw [hu] at hu'
        cases hu'
        rw [if_pos hcan]
        obtain ⟨e, he, hopens, haddr⟩ := h.address hresult
        rw [hstate] at haddr
        exact ⟨e, he, hopens, (toTronAddress_injective haddr).symm⟩
      · have hsafe := h u hu
        rw [if_pos hcan] at hsafe
        obtain ⟨e, he, hopens, haddr⟩ := hsafe
        refine ⟨?_, fun _ => ⟨e, he, hopens, ?_⟩⟩
        · rw [hresult]
          exact ⟨fun _ => ⟨e, he, hopens⟩, fun _ => rfl⟩
        · rw [hstate, haddr]
          rfl

/-- Right after an account has been created, any password logs it in. -/
theorem login_wrongPassword : ¬ LoginCorrect Reference.reference Order.held [3]
    (Wallet.run Reference.reference [Reference.create [1] [2] 1]) := by
  intro h
  have hsome := h.succeeds.mp (by decide +kernel)
  revert hsome
  decide +kernel

end TronWallet.Theorems
