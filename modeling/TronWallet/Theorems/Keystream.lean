import TronWallet.Analysis.Sessions
import TronWallet.Reference.Runs

/-!
# Which encryptions share a key stream

AES-CTR with one key and one initialisation vector gives one key stream, and two texts
encrypted with it give away their difference.  The wallet encrypts in three places.  The
key file of an account has a salt and a vector of its own, drawn when it is made; a cold
file is encrypted under the salt and the vector of the key file, at every
`GenerateAddress`, and the keys file under the vector zero at every write.

So no stream is used twice as long as no cold file is encrypted at all and the keys file
is written once under each of its keys (`EncryptsOnce`).  `StreamsOnce` is the invariant:
each encryption of the run is that of a key file under its own salt, or the only one of
the keys file under its key.
-/

set_option autoImplicit false

namespace TronWallet.Theorems

open TronWallet.Lib TronWallet.Model TronWallet.Analysis

variable (P : Platform)

/-! ## What a run draws and derives -/

/-- The salts drawn for key files. -/
def saltsOf (as : List Action) : List H256 := as.filterMap fun a => match a with
  | .createAccount _ _ _ d => some d.salt
  | _ => none

/-- The salts drawn for the keys file. -/
def fileSaltsOf (as : List Action) : List H256 := as.filterMap fun a => match a with
  | .createAccount _ _ _ d => some d.fileSalt
  | _ => none

/-- The initialisation vectors drawn. -/
def vectorsOf (as : List Action) : List H128 := as.filterMap fun a => match a with
  | .createAccount _ _ _ d => some d.iv
  | _ => none

/-- The salts drawn in two parts of a run. -/
@[simp] theorem saltsOf_append (as bs : List Action) :
    saltsOf (as ++ bs) = saltsOf as ++ saltsOf bs := List.filterMap_append ..

/-- The salts drawn for the keys file in two parts of a run. -/
@[simp] theorem fileSaltsOf_append (as bs : List Action) :
    fileSaltsOf (as ++ bs) = fileSaltsOf as ++ fileSaltsOf bs := List.filterMap_append ..

/-- The vectors drawn in two parts of a run. -/
@[simp] theorem vectorsOf_append (as bs : List Action) :
    vectorsOf (as ++ bs) = vectorsOf as ++ vectorsOf bs := List.filterMap_append ..

/-- **What is drawn is new**: no salt and no initialisation vector is drawn twice. -/
def FreshDraws (as : List Action) : Prop :=
  (saltsOf as ++ fileSaltsOf as).Nodup ∧ (vectorsOf as).Nodup

/-- The keys derived from a password and a salt: for a key file and for the keys file. -/
def derivedKeys (p : Bytes) (salt : H256) : List H128 :=
  [FixedHash.ofBytesLeft (P.pbkdf2 p salt.m_data iterations 32), KeyManager.fileKey P p salt.m_data]

/-- **Distinct pairs of a password and a salt derive distinct keys**, as far as the run
uses them. -/
def DistinctKeys (as : List Action) : Prop :=
  ∀ p ∈ passwordsOf as, ∀ s ∈ saltsOf as ++ fileSaltsOf as,
    ∀ p' ∈ passwordsOf as, ∀ s' ∈ saltsOf as ++ fileSaltsOf as,
      ∀ k ∈ derivedKeys P p s, k ∈ derivedKeys P p' s' → p = p' ∧ s = s'

/-! ## The property and the condition -/

/-- **No key stream is used for two texts.** -/
def NoKeystreamReuse (as : List Action) : Prop :=
  ∀ c ∈ (Wallet.run P as).host.ctrCalls, ∀ c' ∈ (Wallet.run P as).host.ctrCalls,
    c.key = c'.key → c.iv = c'.iv → c.plain = c'.plain

/-- The keys file has not been encrypted under a key. -/
def Unused (key : H128) (host : Host) : Prop :=
  ∀ c ∈ host.ctrCalls, c.site = .keysFile → c.key ≠ key

/-- The key manager has no key for the keys file, or one not used yet. -/
def HoldsUnusedKey (o : Order) (w : Wallet) : Prop :=
  (manager o w).m_keysFileKey = 0 ∨ Unused (manager o w).m_keysFileKey w.host

/-- The condition of a step: it encrypts no cold file, and when it writes the keys file the
key manager has no key for that, or one not used yet. -/
def EncryptsOnce (_ : List Action) (w : Wallet) : Action → Prop
  | .createAccount o _ _ d => (Wallet.makeKey P d.seed d.rounds).toOption.isSome →
      HoldsUnusedKey o w
  | .login o password => (firstUnlocked P o (manager o w) password).isSome → HoldsUnusedKey o w
  | .logout o => HoldsUnusedKey o w
  | .generateAddress o _ =>
      (coldKey P o (manager o w) (toAddress w.Address)).toOption.join = none
  | _ => True

instance (as : List Action) : Decidable (FreshDraws as) := by
  unfold FreshDraws
  infer_instance

instance (as : List Action) : Decidable (DistinctKeys P as) := by
  unfold DistinctKeys
  infer_instance

instance (key : H128) (host : Host) : Decidable (Unused key host) := by
  unfold Unused
  infer_instance

instance (o : Order) (w : Wallet) : Decidable (HoldsUnusedKey o w) := by
  unfold HoldsUnusedKey
  infer_instance

instance (before : List Action) (w : Wallet) (a : Action) :
    Decidable (EncryptsOnce P before w a) :=
  match a with
  | .restart | .createAccount .. | .login .. | .logout .. | .generateAddress ..
  | .loadAddresses .. | .getAddresses .. => by unfold EncryptsOnce; infer_instance

/-! ## The invariant -/

/-- A key derived from a password of the run and a salt of the keys file. -/
def FileKeyOf (before : List Action) (key : H128) : Prop :=
  ∃ p ∈ passwordsOf before, ∃ s ∈ fileSaltsOf before, key = KeyManager.fileKey P p s.m_data

/-- The encryptions so far, and the keys and the salt the next ones may use. -/
structure StreamsOnce (before : List Action) (s : Opened) : Prop where
  /-- A key file is encrypted when its account is created. -/
  account : ∀ x ∈ s.host.ctrCalls, x.site = .account → ∃ c ∈ accountsOf P before, x = c.ctrCall P
  /-- The keys file is encrypted under one of its keys. -/
  keysFile : ∀ x ∈ s.host.ctrCalls, x.site = .keysFile → FileKeyOf P before x.key
  /-- It is encrypted once under each. -/
  once : ∀ x ∈ s.host.ctrCalls, ∀ y ∈ s.host.ctrCalls, x.site = .keysFile → y.site = .keysFile →
    x.key = y.key → x = y
  noCold : ∀ x ∈ s.host.ctrCalls, x.site ≠ .coldFile
  salt : s.host.salt = [] ∨ ∃ salt ∈ fileSaltsOf before, s.host.salt = salt.m_data
  key : s.m.m_keysFileKey = 0 ∨ FileKeyOf P before s.m.m_keysFileKey

/-- The salt and the password of an account are among those of the run. -/
theorem mem_saltsOf {as : List Action} {c : Account} (h : c ∈ accountsOf P as) :
    c.salt ∈ saltsOf as ∧ c.password ∈ passwordsOf as := by
  obtain ⟨a, ha, hc⟩ := List.mem_filterMap.mp h
  cases a with
  | createAccount o name password d =>
      unfold createdBy at hc
      dsimp only at hc
      split at hc
      · cases hc
        exact ⟨List.mem_filterMap.mpr ⟨_, ha, rfl⟩, List.mem_filterMap.mpr ⟨_, ha, rfl⟩⟩
      · cases hc
  | _ => cases hc

section Concat

variable {before : List Action} (a : Action)

/-- A key of the keys file stays one in a longer run. -/
theorem FileKeyOf.concat {key : H128} (h : FileKeyOf P before key) :
    FileKeyOf P (before ++ [a]) key := by
  obtain ⟨p, hp, s, hs, heq⟩ := h
  refine ⟨p, ?_, s, ?_, heq⟩
  · rw [passwordsOf_append]
    exact List.mem_append_left _ hp
  · rw [fileSaltsOf_append]
    exact List.mem_append_left _ hs

/-- The invariant does not depend on what is done next. -/
theorem StreamsOnce.concat {s : Opened} (h : StreamsOnce P before s) :
    StreamsOnce P (before ++ [a]) s := by
  refine ⟨fun x hx hsite => ?_, fun x hx hsite => (h.keysFile x hx hsite).concat P a, h.once,
    h.noCold, h.salt.imp id ?_, h.key.imp id (FileKeyOf.concat P a)⟩
  · obtain ⟨c, hc, heq⟩ := h.account x hx hsite
    exact ⟨c, by simp [hc], heq⟩
  · rintro ⟨salt, hsalt, heq⟩
    refine ⟨salt, ?_, heq⟩
    rw [fileSaltsOf_append]
    exact List.mem_append_left _ hsalt

end Concat

/-- The same encryptions, and a key and a salt that are known. -/
theorem StreamsOnce.of_eq {before : List Action} {s s' : Opened} (h : StreamsOnce P before s)
    (hcalls : s'.host.ctrCalls = s.host.ctrCalls) (hsalt : s'.host.salt = s.host.salt)
    (hkey : s'.m.m_keysFileKey = 0 ∨ FileKeyOf P before s'.m.m_keysFileKey) :
    StreamsOnce P before s' := by
  refine ⟨?_, ?_, ?_, ?_, ?_, hkey⟩
  · rw [hcalls]
    exact h.account
  · rw [hcalls]
    exact h.keysFile
  · rw [hcalls]
    exact h.once
  · rw [hcalls]
    exact h.noCold
  · rw [hsalt]
    exact h.salt

/-- Writing the keys file under a key not used yet. -/
theorem streamsOnce_afterWriteKey {before : List Action} {o : Order} {key : H128} {s : Opened}
    (h : StreamsOnce P before s) (hkey : FileKeyOf P before key) (hunused : Unused key s.host) :
    StreamsOnce P before (afterWriteKey P o key s) := by
  have hnext : (afterWriteKey P o key s).m.m_keysFileKey = 0 ∨
      FileKeyOf P before (afterWriteKey P o key s).m.m_keysFileKey := by
    rcases afterWriteKey_keysFileKey P o key s with heq | heq <;> rw [heq]
    · exact Or.inr hkey
    · exact h.key
  rcases afterWriteKey_host P o key s with ⟨e, htext, hsame⟩ | ⟨text, htext, hnew⟩
  · exact h.of_eq P (by rw [hsame]) (by rw [hsame]) hnext
  · have hcalls : (afterWriteKey P o key s).host.ctrCalls =
        ⟨.keysFile, key, 0, text⟩ :: s.host.ctrCalls := by
      rw [hnew]
      rfl
    refine ⟨?_, ?_, ?_, ?_, by rw [afterWriteKey_salt]; exact h.salt, hnext⟩ <;> rw [hcalls]
    · intro x hx hsite
      rcases List.mem_cons.mp hx with rfl | hx
      · cases hsite
      · exact h.account x hx hsite
    · intro x hx hsite
      rcases List.mem_cons.mp hx with rfl | hx
      · exact hkey
      · exact h.keysFile x hx hsite
    · intro x hx y hy hxs hys heq
      rcases List.mem_cons.mp hx with rfl | hx <;> rcases List.mem_cons.mp hy with rfl | hy
      · rfl
      · exact (hunused y hy hys heq.symm).elim
      · exact (hunused x hx hxs heq).elim
      · exact h.once x hx y hy hxs hys heq
    · intro x hx
      rcases List.mem_cons.mp hx with rfl | hx
      · exact CtrSite.noConfusion
      · exact h.noCold x hx

/-- A write of the keys file under a key that has not been used keeps the invariant. -/
theorem streamsOnce_afterWrite {before : List Action} {o : Order} {s : Opened}
    (h : StreamsOnce P before s)
    (hunused : s.m.m_keysFileKey = 0 ∨ Unused s.m.m_keysFileKey s.host) :
    StreamsOnce P before (afterWrite P o s) := by
  unfold afterWrite
  by_cases hzero : s.m.m_keysFileKey = 0
  · rw [if_pos hzero]
    exact h
  · rw [if_neg hzero]
    exact streamsOnce_afterWriteKey P h (h.key.resolve_left hzero) (hunused.resolve_left hzero)

/-- Importing an account encrypts its key file. -/
theorem streamsOnce_imported {before : List Action} {c : Account} {s : Opened}
    (hc : c ∈ accountsOf P before) (h : StreamsOnce P before s) :
    StreamsOnce P before (imported P c s) := by
  have hcalls : (imported P c s).host.ctrCalls = c.ctrCall P :: s.host.ctrCalls := rfl
  refine ⟨?_, ?_, ?_, ?_, h.salt, h.key⟩ <;> rw [hcalls]
  · intro x hx hsite
    rcases List.mem_cons.mp hx with rfl | hx
    · exact ⟨c, hc, rfl⟩
    · exact h.account x hx hsite
  · intro x hx hsite
    rcases List.mem_cons.mp hx with rfl | hx
    · cases hsite
    · exact h.keysFile x hx hsite
  · intro x hx y hy hxs hys heq
    rcases List.mem_cons.mp hx with rfl | hx
    · cases hxs
    · rcases List.mem_cons.mp hy with rfl | hy
      · cases hys
      · exact h.once x hx y hy hxs hys heq
  · intro x hx
    rcases List.mem_cons.mp hx with rfl | hx
    · exact CtrSite.noConfusion
    · exact h.noCold x hx

/-- Loading the keys file encrypts nothing; its key is derived from the password given. -/
theorem streamsOnce_load {before : List Action} {password : Bytes} {s : Opened}
    (hp : password ∈ passwordsOf before) (h : StreamsOnce P before s) (hbacked : Backed s) :
    StreamsOnce P before (Exec.finalState (KeyManager.load P password) s) := by
  have hframe := load_frame P password s
  refine h.of_eq P hframe.ctrCalls hframe.salt ?_
  rw [load_keysFileKey]
  by_cases hkeys : s.host.keys = []
  · rw [if_pos hkeys]
    exact h.key
  · rw [if_neg hkeys]
    obtain ⟨salt, hmem, heq⟩ := h.salt.resolve_left (hbacked.salt hkeys)
    exact Or.inr ⟨password, hp, salt, hmem, by rw [heq]⟩

/-! ## Fresh draws -/

/-- The draws of the first part of a run are fresh as well. -/
theorem FreshDraws.of_append {as bs : List Action} (h : FreshDraws (as ++ bs)) :
    FreshDraws as := by
  unfold FreshDraws at h ⊢
  rw [saltsOf_append, fileSaltsOf_append, vectorsOf_append] at h
  refine ⟨h.1.sublist ?_, h.2.of_append_left⟩
  exact (List.sublist_append_left _ _).append (List.sublist_append_left _ _)

/-- The keys of the first part of a run are different as well. -/
theorem DistinctKeys.of_append {as bs : List Action} (h : DistinctKeys P (as ++ bs)) :
    DistinctKeys P as := by
  have hp : ∀ p ∈ passwordsOf as, p ∈ passwordsOf (as ++ bs) := fun p hp => by
    rw [passwordsOf_append]
    exact List.mem_append_left _ hp
  have hs : ∀ s ∈ saltsOf as ++ fileSaltsOf as, s ∈ saltsOf (as ++ bs) ++ fileSaltsOf (as ++ bs) :=
    fun s hs => by
    rw [saltsOf_append, fileSaltsOf_append]
    simp only [List.mem_append] at hs ⊢
    tauto
  exact fun p hp₁ s hs₁ p' hp₂ s' hs₂ k hk hk' =>
    h p (hp p hp₁) s (hs s hs₁) p' (hp p' hp₂) s' (hs s' hs₂) k hk hk'

/-- The salts of the accounts were drawn, one for each. -/
theorem salts_sublist (as : List Action) :
    ((accountsOf P as).map Account.salt).Sublist (saltsOf as) := by
  unfold accountsOf saltsOf
  induction as with
  | nil => exact List.Sublist.refl _
  | cons a as ih =>
      cases a with
      | createAccount o name password d =>
          simp only [List.filterMap_cons, createdBy]
          cases Wallet.makeKey P d.seed d.rounds with
          | error e => exact ih.cons _
          | ok k => exact ih.cons_cons _
      | _ => exact ih

/-- Accounts have different salts. -/
theorem account_eq_of_salt {as : List Action} (h : FreshDraws as) {c c' : Account}
    (hc : c ∈ accountsOf P as) (hc' : c' ∈ accountsOf P as) (hsalt : c.salt = c'.salt) : c = c' :=
  List.inj_on_of_nodup_map (h.1.of_append_left.sublist (salts_sublist P as)) hc hc' hsalt

/-- No salt of a key file is one of the keys file. -/
theorem salt_ne_fileSalt {as : List Action} (h : FreshDraws as) {s s' : H256}
    (hs : s ∈ saltsOf as) (hs' : s' ∈ fileSaltsOf as) : s ≠ s' :=
  (List.nodup_append.mp h.1).2.2 s hs s' hs'

/-- The salt of a keys file to be created has not been drawn before. -/
theorem fileSalt_notMem {before : List Action} {o : Order} {name password : Bytes}
    {d : CreateDraws} (h : FreshDraws (before ++ [.createAccount o name password d])) :
    d.fileSalt ∉ fileSaltsOf before := by
  have hnodup := h.1.of_append_right
  rw [fileSaltsOf_append] at hnodup
  intro hmem
  exact (List.nodup_append.mp hnodup).2.2 _ hmem _ (List.mem_singleton.mpr rfl) rfl

/-! ## Every run -/

/-- **One step** keeps the invariant. -/
theorem streamsOnce_step {before : List Action} {w : Wallet} {a : Action}
    (hfresh : FreshDraws (before ++ [a])) (hdistinct : DistinctKeys P (before ++ [a]))
    (hbacked : FileBacked w) (h : ∀ o, StreamsOnce P before (opened o w))
    (hG : EncryptsOnce P before w a) :
    ∀ o, StreamsOnce P (before ++ [a]) (opened o (Wallet.step P w a)) := by
  have hcold : SameSession w (Wallet.step P w a) →
      (Wallet.step P w a).host.ctrCalls = w.host.ctrCalls →
      ∀ o, StreamsOnce P (before ++ [a]) (opened o (Wallet.step P w a)) := by
    intro hsame hcalls o
    refine ((h o).of_eq P hcalls hsame.salt ?_).concat P a
    rcases hsame.keysFileKey o with hzero | heq
    · exact Or.inl hzero
    · rw [show (opened o (Wallet.step P w a)).m.m_keysFileKey = (opened o w).m.m_keysFileKey
        from heq]
      exact (h o).key
  cases a with
  | restart =>
      intro o
      have hnew : StreamsOnce P before (opened o (Wallet.step P w .restart)) :=
        (h o).of_eq P rfl rfl (Or.inl (new_m_keysFileKey o w.host))
      exact hnew.concat P _
  | createAccount o name password d =>
      have himported : ∀ c k, Wallet.makeKey P d.seed d.rounds = .ok k →
          c = accountOf k name password d →
          StreamsOnce P (before ++ [.createAccount o name password d])
            (imported P c (opened o w)) := by
        intro c k hk hc
        refine streamsOnce_imported P ?_ ((h o).concat P _)
        rw [accountsOf_append, accountsOf_singleton, hc]
        simp [createdBy, hk, accountOf]
      have hunused : ∀ c k, Wallet.makeKey P d.seed d.rounds = .ok k →
          (imported P c (opened o w)).m.m_keysFileKey = 0 ∨
            Unused (imported P c (opened o w)).m.m_keysFileKey
              (imported P c (opened o w)).host := by
        intro c k hk
        refine (hG (by rw [hk]; rfl)).imp id fun hunused x hx hsite => ?_
        rcases List.mem_cons.mp hx with rfl | hx
        · cases hsite
        · exact hunused x hx hsite
      rcases createAccount_ends P o name password d w with
        ⟨e, hk, hw⟩ | ⟨k, c, hk, hc, hcan, hw⟩ | ⟨k, c, hk, hc, hcan, hexists, hw⟩ |
          ⟨k, c, hk, hc, hcan, hexists, hw⟩
      · rw [hw]
        exact fun _ => (h o).concat P _
      · rw [hw]
        exact fun _ => streamsOnce_afterWrite P (himported c k hk hc) (hunused c k hk)
      · rw [hw]
        exact fun _ => streamsOnce_afterWrite P (himported c k hk hc) (hunused c k hk)
      · have hb : Backed (imported P c (opened o w)) := (hbacked o).of_eq rfl rfl rfl
        rw [hw, hb.afterWrite_eq_of_after P hexists]
        have hstream := himported c k hk hc
        have hsalt : d.fileSalt ∈ fileSaltsOf (before ++ [.createAccount o name password d]) := by
          rw [fileSaltsOf_append]
          exact List.mem_append_right _ (List.mem_singleton.mpr rfl)
        have hpassword : password ∈ passwordsOf (before ++ [.createAccount o name password d]) := by
          rw [passwordsOf_append]
          exact List.mem_append_right _ (List.mem_singleton.mpr rfl)
        have hprepared : StreamsOnce P (before ++ [.createAccount o name password d])
            (prepared P password d.default d.fileSalt (imported P c (opened o w))) :=
          ⟨hstream.account, hstream.keysFile, hstream.once, hstream.noCold,
            Or.inr ⟨d.fileSalt, hsalt, rfl⟩, hstream.key⟩
        refine fun _ => streamsOnce_afterWriteKey P hprepared
          ⟨password, hpassword, d.fileSalt, hsalt, rfl⟩ fun x hx hsite heq => ?_
        -- A key used before comes from an earlier salt.
        rcases List.mem_cons.mp hx with rfl | hx
        · cases hsite
        · obtain ⟨p, hp, s, hs, hkey⟩ := (h o).keysFile x hx hsite
          have hp' : p ∈ passwordsOf (before ++ [.createAccount o name password d]) := by
            rw [passwordsOf_append]
            exact List.mem_append_left _ hp
          have hs' : s ∈ fileSaltsOf (before ++ [.createAccount o name password d]) := by
            rw [fileSaltsOf_append]
            exact List.mem_append_left _ hs
          rw [hkey] at heq
          obtain ⟨-, rfl⟩ := hdistinct p hp' s (List.mem_append_right _ hs') password hpassword
            d.fileSalt (List.mem_append_right _ hsalt) (KeyManager.fileKey P p s.m_data)
            (by simp [derivedKeys]) (by rw [heq]; simp [derivedKeys])
          exact fileSalt_notMem hfresh hs
  | login o password =>
      have hentered : ∀ u, firstUnlocked P o (manager o w) password = some u →
          StreamsOnce P before (afterWrite P o (enteredAgain P u password (opened o w))) := by
        intro u hu
        refine streamsOnce_afterWrite P ((h o).of_eq P rfl rfl ?_) ?_
        · rw [enteredAgain_m_keysFileKey]
          exact (h o).key
        · rw [enteredAgain_m_keysFileKey, enteredAgain_host]
          exact hG (by rw [hu]; rfl)
      rcases login_leaves P o password w with ⟨hnone, hw⟩ | ⟨u, hu, hcan, hw⟩ | ⟨u, hu, hcan, hw⟩
      · rw [hw]
        exact fun _ => (h o).concat P _
      · rw [hw]
        exact fun _ => (hentered u hu).concat P _
      · rw [hw]
        refine fun _ => streamsOnce_load P ?_ ((hentered u hu).concat P _)
          (backed_afterWrite P ((hbacked o).of_eq (enteredAgain_m_keysFileKey P u _ _) rfl rfl))
        rw [passwordsOf_append]
        exact List.mem_append_right _ (List.mem_singleton.mpr rfl)
  | logout o =>
      have hopened : ∀ m, w.m_keyManager = some m →
          StreamsOnce P before { m := m, host := w.host } ∧
            (m.m_keysFileKey = 0 ∨ Unused m.m_keysFileKey w.host) := by
        intro m hm
        have hstream := h o
        have hunused : HoldsUnusedKey o w := hG
        rw [opened, manager_of_some hm] at hstream
        rw [HoldsUnusedKey, manager_of_some hm] at hunused
        exact ⟨hstream, hunused⟩
      rcases logout_ends P o w with ⟨hm, hw⟩ | ⟨m, hm, hcan, hw⟩ | ⟨m, hm, hcan, hw⟩
      · rw [hw]
        exact fun o' => (h o').concat P _
      · obtain ⟨hstream, hunused⟩ := hopened m hm
        rw [hw]
        exact fun _ => (streamsOnce_afterWrite P (s := forgotten w m)
          (hstream.of_eq P rfl rfl hstream.key) hunused).concat P _
      · obtain ⟨hstream, hunused⟩ := hopened m hm
        rw [hw]
        exact fun _ => (streamsOnce_afterWrite P (s := forgotten w m)
          (hstream.of_eq P rfl rfl hstream.key) hunused).concat P _
  | generateAddress o d =>
      exact hcold (sameSession_cold P trivial) (ctrCalls_generateAddress P hG)
  | loadAddresses o uuids =>
      exact hcold (sameSession_cold P trivial) (loadAddresses_keeps P
        (I := fun w' => w'.host.ctrCalls = w.host.ctrCalls) (fun _ _ _ h => h) o uuids w rfl)
  | getAddresses o uuids =>
      exact hcold (sameSession_cold P trivial) (getAddresses_keeps P
        (I := fun w' => w'.host.ctrCalls = w.host.ctrCalls) (fun _ _ _ h => h) o uuids w rfl)

/-- In a run whose steps meet the condition no keystream is used twice. -/
theorem streamsOnce_run {as : List Action} (hfresh : FreshDraws as) (hdistinct : DistinctKeys P as)
    (hG : EveryStep (Wallet.step P) {} (EncryptsOnce P) as) (o : Order) :
    StreamsOnce P as (opened o (Wallet.run P as)) := by
  have hrun := EveryStep.invariant (I := fun done w => FileBacked w ∧
    (FreshDraws done → DistinctKeys P done → ∀ o, StreamsOnce P done (opened o w)))
    ⟨fileBacked_empty, fun _ _ o => ⟨?_, ?_, ?_, ?_, Or.inl rfl, ?_⟩⟩ ?_ hG
  · exact hrun.2 hfresh hdistinct o
  · exact fun x hx => by cases hx
  · exact fun x hx => by cases hx
  · exact fun x hx => by cases hx
  · exact fun x hx => by cases hx
  · exact Or.inl (new_m_keysFileKey o {})
  · intro done a hI hstep
    exact ⟨fileBacked_step P hI.1, fun hfresh hdistinct => streamsOnce_step P hfresh hdistinct hI.1
      (hI.2 hfresh.of_append (hdistinct.of_append P)) hstep⟩

/-- **No key stream is used twice** in a run that encrypts no cold file and writes the keys
file once under each of its keys. -/
theorem noKeystreamReuse (as : List Action) (hfresh : FreshDraws as)
    (hdistinct : DistinctKeys P as)
    (honce : EveryStep (Wallet.step P) {} (EncryptsOnce P) as) : NoKeystreamReuse P as := by
  have h := streamsOnce_run P hfresh hdistinct honce Order.held
  have hkeyOf : ∀ c : Account, c.key P ∈ derivedKeys P c.password c.salt := fun c => by
    simp [derivedKeys, Account.key]
  have hfile : ∀ p s, KeyManager.fileKey P p s.m_data ∈ derivedKeys P p s := fun p s => by
    simp [derivedKeys]
  -- The key of a key file is not one of the keys file.
  have hsites : ∀ x ∈ (Wallet.run P as).host.ctrCalls, ∀ y ∈ (Wallet.run P as).host.ctrCalls,
      x.site = .account → y.site = .keysFile → x.key ≠ y.key := by
    intro x hx y hy hxs hys heq
    obtain ⟨c, hc, rfl⟩ := h.account x hx hxs
    obtain ⟨p, hp, s, hs, hkey⟩ := h.keysFile y hy hys
    obtain ⟨hsalt, hpass⟩ := mem_saltsOf P hc
    obtain ⟨-, hss⟩ := hdistinct _ hpass _ (List.mem_append_left _ hsalt) p hp s
      (List.mem_append_right _ hs) _ (hkeyOf c)
      (by rw [show c.key P = y.key from heq, hkey]; exact hfile p s)
    exact salt_ne_fileSalt hfresh hsalt hs hss
  intro x hx y hy heq _
  cases hxs : x.site with
  | coldFile => exact (h.noCold x hx hxs).elim
  | account =>
      cases hys : y.site with
      | coldFile => exact (h.noCold y hy hys).elim
      | keysFile => exact (hsites x hx y hy hxs hys heq).elim
      | account =>
          obtain ⟨c, hc, rfl⟩ := h.account x hx hxs
          obtain ⟨c', hc', rfl⟩ := h.account y hy hys
          obtain ⟨hsalt, hpass⟩ := mem_saltsOf P hc
          obtain ⟨hsalt', hpass'⟩ := mem_saltsOf P hc'
          obtain ⟨-, hss⟩ := hdistinct _ hpass _ (List.mem_append_left _ hsalt) _ hpass' _
            (List.mem_append_left _ hsalt') _ (hkeyOf c)
            (by rw [show c.key P = c'.key P from heq]; exact hkeyOf c')
          rw [account_eq_of_salt P hfresh hc hc' hss]
  | keysFile =>
      cases hys : y.site with
      | coldFile => exact (h.noCold y hy hys).elim
      | account => exact (hsites y hy x hx hys hxs heq.symm).elim
      | keysFile => rw [h.once x hx y hy hxs hys heq]

/-- An account generates an address. -/
def reusedRun : List Action := [Reference.create [1] [2] 1, Reference.generate 7]

/-- The cold file is encrypted with the key stream of the secret of the account, though all
that is drawn is new and distinct pairs derive distinct keys. -/
theorem keystream_reused : FreshDraws reusedRun ∧ DistinctKeys Reference.reference reusedRun ∧
    ¬ NoKeystreamReuse Reference.reference reusedRun := by
  refine ⟨by decide, by decide, ?_⟩
  unfold NoKeystreamReuse
  decide +kernel

/-- Two accounts in two sessions, without a login. -/
theorem noKeystreamReuse_created : NoKeystreamReuse Reference.reference
    [Reference.create [1] [2] 1, .restart, Reference.create [5] [3] 3, Reference.leave] :=
  noKeystreamReuse Reference.reference _ (by decide) (by decide)
    (EveryStep.of_check (by decide +kernel))

end TronWallet.Theorems
