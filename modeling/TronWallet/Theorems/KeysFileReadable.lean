import TronWallet.Analysis.Sessions
import TronWallet.Reference.Runs

/-!
# Under which key the keys file is written

The keys file is created under the key of a password, and every later write uses whatever
key the key manager holds then.  `load` puts the key of the password it is given there
before it has looked at the file, so that a `Login` with the password of another account
leaves a key behind under which the next `Logout` writes.  The file stays readable with
the password it was created with as long as no write starts from such a key
(`WritesOwnKey`); `overwrittenRun` is a run in which one does.
-/

set_option autoImplicit false

namespace TronWallet.Theorems

open TronWallet.Lib TronWallet.Model TronWallet.Analysis

variable (P : Platform)

/-! ## The property and the condition -/

/-- The password a step creates the keys file with, if it creates it. -/
def createdFileBy (w : Wallet) : Action → Option Bytes
  | .createAccount o name password d =>
    if KeyManager.fileExists w.host = false ∧
        KeyManager.fileExists (Wallet.step P w (.createAccount o name password d)).host = true
    then some password else none
  | _ => none

/-- The passwords the keys file was created with. -/
def fileCreators (as : List Action) : List Bytes :=
  observed (Wallet.step P) (createdFileBy P) {} as

/-- **The keys file stays readable**: once it has been created with a password, a new key
manager loads it with that password in every later state. -/
def FileStaysReadable (as : List Action) : Prop :=
  ∀ before a later rest p, as = before ++ a :: (later ++ rest) →
    createdFileBy P (Wallet.run P before) a = some p →
    ∀ o, Exec.result? (KeyManager.load P p)
      { m := KeyManager.new o (Wallet.run P (before ++ a :: later)).host,
        host := (Wallet.run P (before ++ a :: later)).host } = some true

/-- The key manager has no key for the keys file, or that of the password. -/
def HoldsKeyOf (p : Bytes) (o : Order) (w : Wallet) : Prop :=
  (manager o w).m_keysFileKey = 0 ∨
    (manager o w).m_keysFileKey = KeyManager.fileKey P p w.host.salt

/-- The condition of a step: one that writes the keys file has no key for it, or that of
the password the file was created with. -/
def WritesOwnKey (before : List Action) (w : Wallet) : Action → Prop
  | .createAccount o _ _ d => (Wallet.makeKey P d.seed d.rounds).toOption.isSome →
      ∀ p ∈ fileCreators P before, HoldsKeyOf P p o w
  | .login o password => (firstUnlocked P o (manager o w) password).isSome →
      ∀ p ∈ fileCreators P before, HoldsKeyOf P p o w
  | .logout o => ∀ p ∈ fileCreators P before, HoldsKeyOf P p o w
  | _ => True

instance (p : Bytes) (o : Order) (w : Wallet) : Decidable (HoldsKeyOf P p o w) := by
  unfold HoldsKeyOf
  infer_instance

instance (before : List Action) (w : Wallet) (a : Action) :
    Decidable (WritesOwnKey P before w a) :=
  match a with
  | .restart | .createAccount .. | .login .. | .logout .. | .generateAddress ..
  | .loadAddresses .. | .getAddresses .. => by unfold WritesOwnKey; infer_instance

/-! ## One step -/

/-- The keys file is the encryption of contents under the key of a password. -/
def Readable (p : Bytes) (host : Host) : Prop :=
  ∃ f : KeysFile, f.encode.length ≤ vectorMaxSize ∧
    host.keys = P.encryptSymNoAuth (KeyManager.fileKey P p host.salt) 0 f.encode

/-- Such a file is loaded with the password. -/
theorem Readable.load {p : Bytes} {host : Host} (h : Readable P p host) (m : KeyManager) :
    Exec.result? (KeyManager.load P p) { m := m, host := host } = some true := by
  obtain ⟨f, hsize, hkeys⟩ := h
  exact Exec.result?_of_ok (load_of_encode P hsize hkeys)

/-- A keys file that can be read is not empty. -/
theorem Readable.keys_ne_nil {p : Bytes} {host : Host} (h : Readable P p host) :
    host.keys ≠ [] := by
  obtain ⟨f, hsize, hkeys⟩ := h
  rw [hkeys, Ne, Platform.encryptSymNoAuth_eq_nil]
  exact (readsAs_list_of_le hsize).ne_nil

/-- Writing under the key of the password makes the file readable with it. -/
theorem readable_of_written {p text : Bytes} {o : Order} {m : KeyManager} {host : Host}
    (htext : m.fileText o = .ok text)
    (hkeys : host.keys = P.encryptSymNoAuth (KeyManager.fileKey P p host.salt) 0 text) :
    Readable P p host := by
  obtain ⟨heq, hsize⟩ := fileText_eq htext
  exact ⟨contentsOf o m, by rw [← heq]; exact hsize, by rw [← heq]; exact hkeys⟩

/-- A write under the key of the password, or under none, keeps the file readable. -/
theorem readable_afterWrite {p : Bytes} {o : Order} {s : Opened} (h : Readable P p s.host)
    (hkey : s.m.m_keysFileKey = 0 ∨ s.m.m_keysFileKey = KeyManager.fileKey P p s.host.salt) :
    Readable P p (afterWrite P o s).host := by
  unfold afterWrite
  by_cases hzero : s.m.m_keysFileKey = 0
  · rw [if_pos hzero]
    exact h
  · rw [if_neg hzero, hkey.resolve_left hzero]
    rcases afterWriteKey_host P o (KeyManager.fileKey P p s.host.salt) s with
      ⟨e, htext, hsame⟩ | ⟨text, htext, hnew⟩
    · rw [hsame]
      exact h
    · rw [hnew]
      exact readable_of_written P htext rfl

/-- A file that is backed by its salt exists. -/
theorem fileExists_of_readable {p : Bytes} {s : Opened} (h : Readable P p s.host)
    (hbacked : Backed s) : KeyManager.fileExists s.host = true :=
  fileExists_iff.mpr ⟨hbacked.salt (h.keys_ne_nil P), h.keys_ne_nil P⟩

/-- The step that creates the file makes it readable. -/
theorem readable_created {w : Wallet} {a : Action} {p : Bytes} (hbacked : FileBacked w)
    (h : createdFileBy P w a = some p) : Readable P p (Wallet.step P w a).host := by
  cases a with
  | createAccount o name password d =>
      unfold createdFileBy at h
      dsimp only at h
      split at h
      next hnew =>
        cases h
        obtain ⟨hbefore, hafter⟩ := hnew
        have hold : ∀ {host : Host}, host.salt = w.host.salt → host.keys = w.host.keys →
            KeyManager.fileExists host ≠ true := by
          intro host hsalt hkeys
          rw [Ne, fileExists_iff, hsalt, hkeys, ← fileExists_iff, hbefore]
          decide
        -- Without a file there is no key to write it under.
        have hnokeys : w.host.keys = [] := (hbacked o).keys_eq_nil hbefore
        have himport : ∀ c, afterWrite P o (imported P c (opened o w)) =
            imported P c (opened o w) := fun c => by
          have himported : Backed (imported P c (opened o w)) := (hbacked o).of_eq rfl rfl rfl
          exact himported.afterWrite_eq P hbefore
        rcases createAccount_ends P o name p d w with
          ⟨e, hk, hw⟩ | ⟨k, c, hk, hc, hcan, hw⟩ | ⟨k, c, hk, hc, hcan, hexists, hw⟩ |
            ⟨k, c, hk, hc, hcan, hexists, hw⟩
        · rw [hw] at hafter
          exact (hold rfl rfl hafter).elim
        · rw [hw, himport] at hafter
          exact (hold rfl rfl hafter).elim
        · rw [hw, himport] at hafter
          exact (hold rfl rfl hafter).elim
        · rw [hw, himport] at hafter ⊢
          rcases afterWriteKey_host P o (KeyManager.fileKey P p d.fileSalt.m_data)
            (prepared P p d.default d.fileSalt (imported P c (opened o w))) with
            ⟨e, htext, hsame⟩ | ⟨text, htext, hnew⟩
          · -- Only the salt was written.
            rw [loggedIn_host, withOpened_host, hsame, fileExists_iff] at hafter
            exact (hafter.2 hnokeys).elim
          · rw [loggedIn_host, withOpened_host, hnew]
            exact readable_of_written P htext rfl
      next => cases h
  | _ => cases h

/-- A step that writes under its own key keeps the file readable. -/
theorem readable_step {before : List Action} {w : Wallet} {a : Action} {p : Bytes}
    (hp : p ∈ fileCreators P before) (hbacked : FileBacked w) (h : Readable P p w.host)
    (hG : WritesOwnKey P before w a) : Readable P p (Wallet.step P w a).host := by
  have hcold : SameSession w (Wallet.step P w a) → Readable P p (Wallet.step P w a).host := by
    intro hsame
    unfold Readable
    rw [hsame.keys, hsame.salt]
    exact h
  cases a with
  | restart => exact h
  | createAccount o name password d =>
      have himported : ∀ c k, Wallet.makeKey P d.seed d.rounds = .ok k →
          Readable P p (afterWrite P o (imported P c (opened o w))).host := fun c k hk =>
        readable_afterWrite P h (hG (by rw [hk]; rfl) p hp)
      rcases createAccount_ends P o name password d w with
        ⟨e, hk, hw⟩ | ⟨k, c, hk, hc, hcan, hw⟩ | ⟨k, c, hk, hc, hcan, hexists, hw⟩ |
          ⟨k, c, hk, hc, hcan, hexists, hw⟩
      · rw [hw]
        exact h
      · rw [hw]
        exact himported c k hk
      · rw [hw]
        exact himported c k hk
      · have htrue := fileExists_of_readable P (himported c k hk)
          (backed_afterWrite P ((hbacked o).of_eq rfl rfl rfl))
        rw [hexists] at htrue
        cases htrue
  | login o password =>
      have hentered : ∀ u, firstUnlocked P o (manager o w) password = some u →
          Readable P p (afterWrite P o (enteredAgain P u password (opened o w))).host := by
        intro u hu
        refine readable_afterWrite P h ?_
        rw [enteredAgain_m_keysFileKey]
        exact hG (by rw [hu]; rfl) p hp
      rcases login_leaves P o password w with ⟨hnone, hw⟩ | ⟨u, hu, hcan, hw⟩ | ⟨u, hu, hcan, hw⟩
      · rw [hw]
        exact h
      · rw [hw]
        exact hentered u hu
      · rw [hw]
        have hframe := load_frame P password
          (afterWrite P o (enteredAgain P u password (opened o w)))
        have := hentered u hu
        unfold Readable at this ⊢
        rw [loggedIn_host, withOpened_host, hframe.keys, hframe.salt]
        exact this
  | logout o =>
      have hkey := hG p hp
      rcases logout_ends P o w with ⟨hm, hw⟩ | ⟨m, hm, hcan, hw⟩ | ⟨m, hm, hcan, hw⟩
      · rw [hw]
        exact h
      · rw [HoldsKeyOf, manager_of_some hm] at hkey
        rw [hw]
        exact readable_afterWrite P (s := forgotten w m) h hkey
      · rw [HoldsKeyOf, manager_of_some hm] at hkey
        rw [hw]
        exact readable_afterWrite P (s := forgotten w m) h hkey
  | generateAddress o d => exact hcold (sameSession_cold P trivial)
  | loadAddresses o uuids => exact hcold (sameSession_cold P trivial)
  | getAddresses o uuids => exact hcold (sameSession_cold P trivial)

/-! ## Every run -/

/-- **The keys file stays readable** in a run that writes it under its own key. -/
theorem fileStaysReadable (as : List Action)
    (hwrites : EveryStep (Wallet.step P) {} (WritesOwnKey P) as) : FileStaysReadable P as := by
  intro before a later rest p has hcreated o
  have hcut : as = (before ++ [a] ++ later) ++ rest := by simp [has]
  have hlater : before ++ a :: later = before ++ [a] ++ later := by simp
  rw [hcut] at hwrites
  rw [hlater]
  refine Readable.load P (p := p) ?_ _
  refine (EveryStep.invariant_from (I := fun done w => p ∈ fileCreators P done ∧ FileBacked w ∧
    Readable P p w.host) (before ++ [a]) ⟨?_, fileBacked_run P _, ?_⟩ ?_ later
    hwrites.of_append).2.2
  · unfold fileCreators
    rw [observed_concat, show createdFileBy P (runFrom (Wallet.step P) {} before) a = some p
      from hcreated]
    simp
  · rw [runFrom_concat]
    exact readable_created P (fileBacked_run P before) hcreated
  · rintro done b - ⟨hp, hbacked, hread⟩ hG
    exact ⟨mem_observed_concat _ _ b hp, fileBacked_step P hbacked,
      readable_step P hp hbacked hread hG⟩

/-- A second account is created in a later session, logs in with its own password and logs
out. -/
def overwrittenRun : List Action :=
  [Reference.create [1] [2] 1, .restart, Reference.create [5] [3] 3, .restart,
    Reference.enter [3], Reference.leave]

/-- The logout writes the file under the key of the second password. -/
theorem keysFile_unreadable : ¬ FileStaysReadable Reference.reference overwrittenRun := by
  intro h
  have hread := h [] (Reference.create [1] [2] 1) [.restart, Reference.create [5] [3] 3, .restart,
    Reference.enter [3], Reference.leave] [] [2] rfl (by decide +kernel) Order.held
  revert hread
  decide +kernel

/-- Two accounts with one password share the file. -/
theorem fileStaysReadable_shared : FileStaysReadable Reference.reference
    [Reference.create [1] [2] 1, .restart, Reference.create [5] [2] 3, .restart,
      Reference.enter [2], Reference.leave] :=
  fileStaysReadable Reference.reference _ (EveryStep.of_check (by decide +kernel))

end TronWallet.Theorems
