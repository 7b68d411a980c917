import TronWallet.Analysis.ColdFiles
import TronWallet.Reference.Runs

/-!
# When a cold key is lost

`GenerateAddress` writes the whole file of an account from what is in memory, and does not
read the file first as `GetAddresses` does.  A key is kept exactly as long as each such
write starts from memory that holds the file, under the account's own key: `GenerateSafe`
is that condition on the state before the step, and `coldKeys_kept` the statement about
runs.  `lostRun` is a run in which the first generated key is lost at the second one.
-/

set_option autoImplicit false

namespace TronWallet.Theorems

open TronWallet.Lib TronWallet.Model TronWallet.Analysis

variable (P : Platform)

/-- The name of the cold file of an account. -/
def coldName (c : Account) : Bytes := toHex (toTronAddress (c.address P))

/-- The cold file of an account has a name. -/
theorem coldName_ne_nil (c : Account) : coldName P c ≠ [] := by
  simp [coldName, toTronAddress, toHex]

/-- A cold file has the name of an account if and only if it is written for its address. -/
theorem coldName_eq_iff {c : Account} {b : Bytes} :
    toHex b = coldName P c ↔ b = toTronAddress (c.address P) :=
  ⟨fun h => toHex_injective h, fun h => by rw [h]; rfl⟩

/-- The dictionary in the cold file of the account, decrypted with the key derived from its
own password; empty when there is no such file or no dictionary in it. -/
def fileDictionary (c : Account) (host : Host) : Dictionary :=
  match host.coldWallet.lookup (coldName P c) with
  | none => []
  | some data =>
    match P.jsonRead (P.decryptSymNoAuth (c.key P) c.iv data) with
    | some (.dictionary d) => d
    | _ => []

/-- The cold file of the account is a dictionary that maps the address to the key. -/
def HoldsKey (c : Account) (s b : Bytes) (host : Host) : Prop :=
  ((fileDictionary P c host).find s).bind stringOf = some (toHex b)

/-- **No cold key is lost**: once an address has been returned, every later state keeps the
key generated for it in the file of the account. -/
def ColdKeysKept (as : List Action) : Prop :=
  ∀ before o d later rest, as = before ++ .generateAddress o d :: (later ++ rest) →
    ∀ c ∈ accountsOf P before, (Wallet.run P before).Address = toTronAddress (c.address P) →
      ∀ s, Exec.result? (Wallet.generateAddress P o d) (Wallet.run P before) = some s →
        ∃ k, Wallet.makeKey P d.seed d.rounds = .ok k ∧
          HoldsKey P c s k.m_secret.m_data
            (Wallet.run P (before ++ .generateAddress o d :: later)).host

/-- When generating an address for an account is safe. -/
structure GenerateSafe (c : Account) (o : Order) (d : GenerateDraws) (w : Wallet) : Prop where
  /-- The password cached and the key file found for the account are its own. -/
  ownKey : ∀ p ∈ (coldKey P o (manager o w) (c.address P)).toOption.join, p = (c.key P, c.iv)
  /-- Memory holds every entry of the file, and no other key under its address. -/
  inMemory : ∀ e ∈ fileDictionary P c w.host,
    (∃ p ∈ UnorderedMap.pairs w.address_lookup_, p.2 = e.1) ∧
      ∀ p ∈ UnorderedMap.pairs w.address_lookup_, p.2 = e.1 →
        ∀ b ∈ w.cached_.lookup p.1, stringOf e.2 = some (toHex b)
  /-- The identifier drawn is not in use. -/
  newUuid : d.uuid ∉ w.address_lookup_
  /-- The address drawn is not in memory. -/
  newAddress : ∀ k ∈ (Wallet.makeKey P d.seed d.rounds).toOption,
    ∀ p ∈ UnorderedMap.pairs w.address_lookup_, p.2 ≠ coldAddress P k

instance (c : Account) (o : Order) (d : GenerateDraws) (w : Wallet) :
    Decidable (GenerateSafe P c o d w) :=
  decidable_of_iff
    ((∀ p ∈ (coldKey P o (manager o w) (c.address P)).toOption.join, p = (c.key P, c.iv)) ∧
      (∀ e ∈ fileDictionary P c w.host,
        (∃ p ∈ UnorderedMap.pairs w.address_lookup_, p.2 = e.1) ∧
          ∀ p ∈ UnorderedMap.pairs w.address_lookup_, p.2 = e.1 →
            ∀ b ∈ w.cached_.lookup p.1, stringOf e.2 = some (toHex b)) ∧
      d.uuid ∉ w.address_lookup_ ∧
      ∀ k ∈ (Wallet.makeKey P d.seed d.rounds).toOption,
        ∀ p ∈ UnorderedMap.pairs w.address_lookup_, p.2 ≠ coldAddress P k)
    ⟨fun h => ⟨h.1, h.2.1, h.2.2.1, h.2.2.2⟩,
      fun h => ⟨h.ownKey, h.inMemory, h.newUuid, h.newAddress⟩⟩

/-- The condition of a step: every `GenerateAddress` under an account is safe for it. -/
def GeneratesSafely (before : List Action) (w : Wallet) : Action → Prop
  | .generateAddress o d => ∀ c ∈ accountsOf P before,
      w.Address = toTronAddress (c.address P) → GenerateSafe P c o d w
  | _ => True

instance (before : List Action) (w : Wallet) (a : Action) :
    Decidable (GeneratesSafely P before w a) :=
  match a with
  | .restart | .createAccount .. | .login .. | .logout .. | .generateAddress ..
  | .loadAddresses .. | .getAddresses .. => by unfold GeneratesSafely; infer_instance

/-! ## One write -/

/-- The file of the account is its own encryption of a dictionary that maps the address to
the key. -/
def Kept (c : Account) (s b : Bytes) (host : Host) : Prop :=
  ∃ d : Dictionary, host.coldWallet.lookup (coldName P c) =
      some (P.encryptSymNoAuth (c.key P) c.iv (P.jsonWrite (.dictionary d))) ∧
    DictOk (fun _ _ => True) d ∧ d.find s = some (.string (toHex b))

/-- Such a file reads back as its dictionary. -/
theorem fileDictionary_of_lookup (hjson : JsonLaws P) {c : Account} {host : Host} {d : Dictionary}
    (hd : DictOk (fun _ _ => True) d) (hdata : host.coldWallet.lookup (coldName P c) =
      some (P.encryptSymNoAuth (c.key P) c.iv (P.jsonWrite (.dictionary d)))) :
    fileDictionary P c host = d := by
  unfold fileDictionary
  rw [hdata]
  simp only
  rw [Platform.decryptSymNoAuth_encryptSymNoAuth, hjson.read_write d hd.sorted hd.plain]

/-- An entry that is kept can be read back with the password. -/
theorem Kept.holdsKey (hjson : JsonLaws P) {c : Account} {s b : Bytes} {host : Host}
    (h : Kept P c s b host) : HoldsKey P c s b host := by
  obtain ⟨d, hdata, hd, hfind⟩ := h
  unfold HoldsKey
  rw [fileDictionary_of_lookup P hjson hd hdata, hfind]
  rfl

/-- The cold files after the file of the account logged in has been written. -/
theorem wroteCold_lookup {o : Order} {key iv : H128} {w : Wallet} {name : Bytes}
    (hname : name ≠ []) : (wroteCold P o key iv w).host.coldWallet.lookup name =
      if name = toHex w.Address then some (P.encryptSymNoAuth key iv (coldText P o w))
      else w.host.coldWallet.lookup name := by
  unfold wroteCold
  by_cases hnil : toHex w.Address = []
  · rw [if_pos hnil, if_neg (by rw [hnil]; exact hname)]
    rfl
  · rw [if_neg hnil]
    simp only [Host.noteCtrCall, UnorderedMap.lookup_insert_eq]

/-- What is in memory with one key only is kept by a write under the account's own key. -/
theorem kept_of_memory {c : Account} {o : Order} {w : Wallet} {uuid : H128} {s b : Bytes}
    (hmem : ColdMem (fun _ _ => True) w) (haddr : w.Address = toTronAddress (c.address P))
    (hs : w.address_lookup_.lookup uuid = some s)
    (hone : ∀ uuid' b', w.address_lookup_.lookup uuid' = some s →
      w.cached_.lookup uuid' = some b' → b' = b) :
    Kept P c s b (wroteCold P o (c.key P) c.iv w).host := by
  have huuid : uuid ∈ w.cached_ :=
    (hmem.sameKeys uuid).mp (AList.lookup_isSome.mp (by rw [hs]; rfl))
  obtain ⟨b₀, hb₀⟩ := Option.isSome_iff_exists.mp (AList.lookup_isSome.mpr huuid)
  obtain ⟨uuid', b', hs', hb', hfind⟩ := find_coldDictionary hmem o hs hb₀
  refine ⟨w.coldDictionary o, ?_, dictOk_coldDictionary hmem o, ?_⟩
  · rw [wroteCold_lookup P (coldName_ne_nil P c), if_pos ((coldName_eq_iff P).mpr haddr).symm]
    rfl
  · rw [hfind, hone uuid' b' hs' hb']

/-- The tables after a key has been noted under an identifier that is not in use. -/
theorem noted_lookup {o : Order} {d : GenerateDraws} {k : KeyPair} {w : Wallet}
    (hmem : ColdMem (fun _ _ => True) w) (hnew : d.uuid ∉ w.address_lookup_) (uuid : H128) :
    (noted P o d k w).address_lookup_.lookup uuid =
        (if uuid = d.uuid then some (coldAddress P k) else w.address_lookup_.lookup uuid) ∧
      (noted P o d k w).cached_.lookup uuid =
        (if uuid = d.uuid then some k.m_secret.m_data else w.cached_.lookup uuid) := by
  have hnew' : d.uuid ∉ w.cached_ := fun h => hnew ((hmem.sameKeys _).mpr h)
  unfold noted
  simp only [UnorderedMap.lookup_emplace, AList.lookup_eq_none.mpr hnew,
    AList.lookup_eq_none.mpr hnew', Option.getD_none, and_self]

section Step

variable {c : Account} {o : Order} {d : GenerateDraws} {k : KeyPair} {w : Wallet}
  (hsafe : GenerateSafe P c o d w) (hmem : ColdMem (fun _ _ => True) w)
  (haddr : w.Address = toTronAddress (c.address P))
  (hk : Wallet.makeKey P d.seed d.rounds = .ok k)

include hsafe hmem haddr hk

/-- The write of a new key keeps the new key. -/
theorem kept_new : Kept P c (coldAddress P k) k.m_secret.m_data
    (wroteCold P o (c.key P) c.iv (noted P o d k w)).host := by
  have hlook := noted_lookup P (o := o) (k := k) hmem hsafe.newUuid
  have hone : ∀ uuid b', (noted P o d k w).address_lookup_.lookup uuid = some (coldAddress P k) →
      (noted P o d k w).cached_.lookup uuid = some b' → b' = k.m_secret.m_data := by
    intro uuid b' hs hb
    rw [(hlook uuid).1] at hs
    rw [(hlook uuid).2] at hb
    by_cases hu : uuid = d.uuid
    · rw [if_pos hu] at hb
      exact (Option.some.inj hb).symm
    · rw [if_neg hu] at hs
      exact (hsafe.newAddress k (by rw [hk]; rfl) _ (UnorderedMap.mem_pairs.mpr hs) rfl).elim
  exact kept_of_memory P (coldMem_noted P hmem trivial) haddr
    (by rw [(hlook d.uuid).1, if_pos rfl]) hone

/-- The write of a new key keeps what the file held. -/
theorem kept_old (hjson : JsonLaws P) {s b : Bytes} (hkept : Kept P c s b w.host) :
    Kept P c s b (wroteCold P o (c.key P) c.iv (noted P o d k w)).host := by
  obtain ⟨dict, hdata, hdict, hfind⟩ := hkept
  have hentry : (s, Value.string (toHex b)) ∈ fileDictionary P c w.host := by
    rw [fileDictionary_of_lookup P hjson hdict hdata]
    exact (Dictionary.find_eq_some_iff_mem hdict.sorted).mp hfind
  obtain ⟨⟨⟨uuid, s'⟩, hmem', heq⟩, hone⟩ := hsafe.inMemory _ hentry
  have hs : w.address_lookup_.lookup uuid = some s := by
    rw [UnorderedMap.mem_pairs.mp hmem', show s' = s from heq]
  have hlook := noted_lookup P (o := o) (k := k) hmem hsafe.newUuid
  have hne : ∀ u, w.address_lookup_.lookup u = some s → u ≠ d.uuid := by
    rintro u hu rfl
    exact hsafe.newUuid (AList.lookup_isSome.mp (by rw [hu]; rfl))
  refine kept_of_memory P (coldMem_noted P hmem trivial) haddr
    (by rw [(hlook uuid).1, if_neg (hne uuid hs)]; exact hs) ?_
  intro uuid' b' hs' hb'
  rw [(hlook uuid').1] at hs'
  rw [(hlook uuid').2] at hb'
  by_cases hu : uuid' = d.uuid
  · -- The new address is not one the file had.
    rw [if_pos hu] at hs'
    cases hs'
    exact (hsafe.newAddress k (by rw [hk]; rfl) _ hmem' heq).elim
  · rw [if_neg hu] at hs' hb'
    have htext := hone (uuid', s) (UnorderedMap.mem_pairs.mpr hs') rfl b' hb'
    exact (toHex_injective (Option.some.inj htext)).symm

end Step

/-! ## Runs -/

/-- A safe step keeps a key in the file of its account. -/
theorem kept_step (hjson : JsonLaws P) {before : List Action} {w : Wallet} {a : Action}
    {c : Account} {s b : Bytes} (hc : c ∈ accountsOf P before)
    (hmem : ColdMem (fun _ _ => True) w) (hsafe : GeneratesSafely P before w a)
    (hkept : Kept P c s b w.host) : Kept P c s b (Wallet.step P w a).host := by
  have hfiles : ∀ w' : Wallet, w'.host.coldWallet = w.host.coldWallet → Kept P c s b w'.host := by
    intro w' h
    unfold Kept
    rw [h]
    exact hkept
  have hload : ∀ o uuids w', LoadEnds P o uuids w w' → Kept P c s b w'.host := by
    intro o uuids w' h
    rcases h with ⟨rfl⟩ | ⟨m, data, key, iv, root, -, -, -, -, -, rfl⟩
    · exact hkept
    · exact hfiles _ (by rw [(noteAllLoaded_frame uuids 0 root w).2.2])
  cases a with
  | restart => exact hfiles _ rfl
  | createAccount o name password d =>
      exact hfiles _ (sameCold_createAccount P o name password d w).files
  | login o password => exact hfiles _ (sameCold_login P o password w).files
  | logout o => exact hfiles _ (sameCold_logout P o w).files
  | loadAddresses o uuids => exact hload o uuids _ (loadAddresses_ends P hjson o uuids w)
  | getAddresses o uuids => exact hload o uuids _ (getAddresses_ends P hjson o uuids w).1
  | generateAddress o d =>
      rcases generateAddress_leaves P hjson o d w with ⟨e, hk, hw⟩ | ⟨k, hk, hw⟩ |
        ⟨k, key, iv, hk, hkey, hw⟩
      · exact hfiles _ (by rw [hw]; rfl)
      · exact hfiles _ (by rw [hw]; rfl)
      · rw [hw]
        by_cases haddr : w.Address = toTronAddress (c.address P)
        · have hown := hsafe c hc haddr
          rw [haddr, toAddress_toTronAddress] at hkey
          obtain ⟨rfl, rfl⟩ := Prod.mk.inj (hown.ownKey (key, iv) (by rw [hkey]; rfl))
          exact kept_old P hown hmem haddr hk hjson hkept
        · -- The file of another account is written.
          obtain ⟨dict, hdata, hdict, hfind⟩ := hkept
          refine ⟨dict, ?_, hdict, hfind⟩
          rw [wroteCold_lookup P (coldName_ne_nil P c), if_neg]
          · exact hdata
          · intro heq
            exact haddr ((coldName_eq_iff P).mp heq.symm)

/-- The step that returns an address puts its key in the file. -/
theorem kept_start (hjson : JsonLaws P) {before : List Action} {w : Wallet} {o : Order}
    {d : GenerateDraws} {c : Account} {s : Bytes} (hc : c ∈ accountsOf P before)
    (haddr : w.Address = toTronAddress (c.address P)) (hmem : ColdMem (fun _ _ => True) w)
    (hsafe : GeneratesSafely P before w (.generateAddress o d))
    (hs : Exec.result? (Wallet.generateAddress P o d) w = some s) :
    ∃ k, Wallet.makeKey P d.seed d.rounds = .ok k ∧
      Kept P c s k.m_secret.m_data (Wallet.step P w (.generateAddress o d)).host := by
  have hends := generateAddress_ends P hjson o d w
  show ∃ k, Wallet.makeKey P d.seed d.rounds = .ok k ∧
    Kept P c s k.m_secret.m_data (Exec.finalState (Wallet.generateAddress P o d) w).host
  unfold Exec.result? at hs
  unfold Exec.finalState
  generalize Wallet.generateAddress P o d w = r at hends hs
  cases hends with
  | noKey e hk => cases hs
  | threw e k hk => cases hs
  | done k key iv hk hkey =>
      cases hs
      have hown := hsafe c hc haddr
      rw [haddr, toAddress_toTronAddress] at hkey
      obtain ⟨rfl, rfl⟩ := Prod.mk.inj (hown.ownKey (key, iv) (by rw [hkey]; rfl))
      exact ⟨k, hk, kept_new P hown hmem haddr hk⟩

/-- **No cold key is lost** in a run that generates safely. -/
theorem coldKeys_kept (hjson : JsonLaws P) (as : List Action) (hread : WrongKeyUnreadable P as)
    (hsafe : EveryStep (Wallet.step P) {} (GeneratesSafely P) as) : ColdKeysKept P as := by
  intro before o d later rest has c hc haddr s hs
  have hcut : as = (before ++ [.generateAddress o d] ++ later) ++ rest := by simp [has]
  have hlater : before ++ Action.generateAddress o d :: later =
      before ++ [.generateAddress o d] ++ later := by simp
  rw [hcut] at hread hsafe
  obtain ⟨hmem, hdisk⟩ := cold_run P hjson (Q := fun _ _ => True) (fun _ _ _ _ => trivial)
    hread.of_append.of_append.of_append
  obtain ⟨k, hk, hstart⟩ := kept_start P hjson hc haddr hmem
    hsafe.of_append.of_append.at_step hs
  refine ⟨k, hk, Kept.holdsKey P hjson ?_⟩
  rw [hlater]
  -- From the step on, the file of the account keeps the key.
  refine (EveryStep.invariant_from
    (I := fun done w => c ∈ accountsOf P done ∧ (ColdMem (fun _ _ => True) w ∧
      ColdDisk P (fun _ _ _ => True) w.host) ∧ Kept P c s k.m_secret.m_data w.host)
    (before ++ [.generateAddress o d]) ⟨?_, ?_, ?_⟩ ?_ later
    (hsafe.of_append.and hread.of_append)).2.2
  · simp [hc]
  · exact cold_run P hjson (Q := fun _ _ => True) (fun _ _ _ _ => trivial) hread.of_append.of_append
  · rw [runFrom_concat]
    exact hstart
  · rintro done a - ⟨hc, hcold, hkept⟩ ⟨hG, hreads⟩
    refine ⟨by simp [hc], cold_step P hjson (fun _ _ _ _ => trivial) hcold.1 hcold.2
      (readsOwnText_of_step P hreads), ?_⟩
    exact kept_step P hjson hc hcold.1 hG hkept

/-- An account generates an address, and after a restart another one. -/
def lostRun : List Action :=
  [Reference.create [1] [2] 1, Reference.generate 7, .restart, Reference.enter [2],
    Reference.generate 9]

/-- The account of the runs evaluated here. -/
def soleAccount : Account :=
  ⟨Reference.smallSecret 1, [1], [2], Reference.repeated 16 1, Reference.repeated 32 1,
    Reference.repeated 16 101⟩

/-- The first key is lost when the second one is generated. -/
theorem coldKeys_lost : ¬ ColdKeysKept Reference.reference lostRun := by
  intro h
  have hkept := h [Reference.create [1] [2] 1] Order.held ⟨Reference.smallSecret 7, 0,
    Reference.repeated 16 7⟩ [.restart, Reference.enter [2], Reference.generate 9] [] rfl
    soleAccount (by decide) (by decide +kernel) (Reference.generated 7) (by decide +kernel)
  obtain ⟨k, -, hholds⟩ := hkept
  have hnone : ((fileDictionary Reference.reference soleAccount
      (Wallet.run Reference.reference lostRun).host).find (Reference.generated 7)).bind stringOf =
        none := by decide +kernel
  unfold HoldsKey at hholds
  rw [show Wallet.run Reference.reference ([Reference.create [1] [2] 1] ++
    .generateAddress Order.held ⟨Reference.smallSecret 7, 0, Reference.repeated 16 7⟩ ::
      [.restart, Reference.enter [2], Reference.generate 9]) =
    Wallet.run Reference.reference lostRun from rfl, hnone] at hholds
  cases hholds

/-- Listing the addresses first keeps the first key. -/
theorem coldKeys_kept_listed : ColdKeysKept Reference.reference
    [Reference.create [1] [2] 1, Reference.generate 7, .restart, Reference.enter [2],
      Reference.list 60, Reference.generate 9] := by
  have hsteps : EveryStep (Wallet.step Reference.reference) {}
      (fun before w a => ReadsStep Reference.reference w a ∧
        GeneratesSafely Reference.reference before w a)
      [Reference.create [1] [2] 1, Reference.generate 7, .restart, Reference.enter [2],
        Reference.list 60, Reference.generate 9] := EveryStep.of_check (by decide +kernel)
  exact coldKeys_kept Reference.reference Reference.reference_json _
    (hsteps.mono fun _ _ _ hstep => hstep.1) (hsteps.mono fun _ _ _ hstep => hstep.2)

end TronWallet.Theorems
