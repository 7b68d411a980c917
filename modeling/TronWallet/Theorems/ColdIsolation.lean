import TronWallet.Analysis.ColdFiles
import TronWallet.Reference.Runs

/-!
# Whose cold addresses an account sees

The two tables of the cold wallet outlive a session: `Logout` does not empty them, and
`LoadAddresses` loads nothing while they hold something.  What an account sees is its own
exactly as long as the tables hold nothing else when it is logged in; `EntersClean` is
that condition on the state before the step.  `Separated` is the invariant that follows:
the memory of an account that is logged in holds only what was generated under it, and so
does each file under the account it is named after.  `sharedRun` is a run in which the
second account is shown the address of the first.
-/

set_option autoImplicit false

namespace TronWallet.Theorems

open TronWallet.Lib TronWallet.Model TronWallet.Analysis

variable (P : Platform)

/-! ## What was generated under which account -/

/-- A generated address and its key, with the account that was logged in. -/
structure Generated where
  account : Bytes
  address : Bytes
  key : Bytes
deriving DecidableEq

/-- What an action generates. -/
def generatedBy (w : Wallet) : Action → Option Generated
  | .generateAddress _ d =>
    match Wallet.makeKey P d.seed d.rounds with
    | .ok k => some ⟨w.Address, coldAddress P k, k.m_secret.m_data⟩
    | .error _ => none
  | _ => none

/-- What a run generates. -/
def generatedIn (as : List Action) : List Generated :=
  observed (Wallet.step P) (generatedBy P) {} as

/-- What a run has generated, and what the step behind it generates. -/
theorem generatedIn_concat (as : List Action) (a : Action) :
    generatedIn P (as ++ [a]) =
      generatedIn P as ++ (generatedBy P (Wallet.run P as) a).toList :=
  observed_concat _ _ _ as a

/-- A later state knows what an earlier one knew. -/
theorem mem_generatedIn_concat {as : List Action} {g : Generated} (a : Action)
    (h : g ∈ generatedIn P as) : g ∈ generatedIn P (as ++ [a]) :=
  mem_observed_concat _ _ a h

/-- An action that generates nothing adds nothing. -/
theorem generatedIn_concat_of_none {as : List Action} {a : Action}
    (h : generatedBy P (Wallet.run P as) a = none) :
    generatedIn P (as ++ [a]) = generatedIn P as := by
  rw [generatedIn_concat, h]
  simp

/-! ## The property and the condition -/

/-- What a step shows and writes belongs to the account logged in: `GetAddresses` returns
only addresses generated under it, and the file `GenerateAddress` leaves, read with the key
it was written under, holds no key generated under another account. -/
def OwnStep (before : List Action) (w : Wallet) : Action → Prop
  | .getAddresses o uuids => w.Address ≠ [] →
      ∀ l, Exec.result? (Wallet.getAddresses P o uuids) w = some l → ∀ s ∈ l,
        ∃ g ∈ generatedIn P before, g.account = w.Address ∧ g.address = s
  | .generateAddress o d => w.Address ≠ [] →
      ∀ s, Exec.result? (Wallet.generateAddress P o d) w = some s →
      ∀ key iv, coldKey P o (manager o w) (toAddress w.Address) = .ok (some (key, iv)) →
      ∀ data root, (Wallet.step P w (.generateAddress o d)).host.coldWallet.lookup
          (toHex w.Address) = some data →
        P.jsonRead (P.decryptSymNoAuth key iv data) = some (.dictionary root) →
        ∀ e ∈ root, ∀ b, stringOf e.2 = some (toHex b) →
          ∀ g ∈ generatedIn P (before ++ [.generateAddress o d]), g.key = b →
            g.account = w.Address
  | _ => True

/-- No key of an address generated under another account can be looked up. -/
def OwnLookups (before : List Action) (w : Wallet) : Prop :=
  w.Address ≠ [] → ∀ g ∈ generatedIn P before, g.account ≠ w.Address →
    ∀ o, Wallet.lookupPrivate o w g.address = 0

/-- **Cold accounts are isolated**: in every state and at every step of the run. -/
def ColdIsolated (as : List Action) : Prop :=
  EveryStep (Wallet.step P) {} (OwnStep P) as ∧
    ∀ before rest, as = before ++ rest → OwnLookups P before (Wallet.run P before)

/-- Whatever is in memory was generated under an account. -/
def MemoryOf (before : List Action) (w : Wallet) (account : Bytes) : Prop :=
  ∀ p ∈ UnorderedMap.pairs w.address_lookup_, ∀ b ∈ w.cached_.lookup p.1,
    ⟨account, p.2, b⟩ ∈ generatedIn P before

/-- The condition of a step: an account is logged in only when all that is in memory was
generated under it, and no address is generated that was generated under another one. -/
def EntersClean (before : List Action) (w : Wallet) : Action → Prop
  | .createAccount o name password d =>
    ∀ account ∈ enters P w (.createAccount o name password d), MemoryOf P before w account
  | .login o password => ∀ account ∈ enters P w (.login o password), MemoryOf P before w account
  | .generateAddress _ d => ∀ k ∈ (Wallet.makeKey P d.seed d.rounds).toOption,
      ∀ g ∈ generatedIn P before, g.address = coldAddress P k → g.account = w.Address
  | _ => True

instance (before : List Action) (w : Wallet) (account : Bytes) :
    Decidable (MemoryOf P before w account) := by
  unfold MemoryOf
  infer_instance

instance (before : List Action) (w : Wallet) (a : Action) :
    Decidable (EntersClean P before w a) :=
  match a with
  | .restart | .createAccount .. | .login .. | .logout .. | .generateAddress ..
  | .loadAddresses .. | .getAddresses .. => by unfold EntersClean; infer_instance

/-! ## The invariant -/

/-- What is on disk under a name was generated under the account the name belongs to. -/
def OnDisk (before : List Action) (name s b : Bytes) : Prop :=
  ∃ g ∈ generatedIn P before, toHex g.account = name ∧ g.address = s ∧ g.key = b

/-- Memory and files hold only what was generated under their account. -/
structure Separated (before : List Action) (w : Wallet) : Prop where
  memory : w.Address ≠ [] →
    ColdMem (fun s b => ⟨w.Address, s, b⟩ ∈ generatedIn P before) w
  anyMemory : ColdMem (fun _ _ => True) w
  disk : ColdDisk P (OnDisk P before) w.host
  /-- An address is the address of its key. -/
  ofKey : ∀ g ∈ generatedIn P before,
    g.address = coldAddress P (P.keyPair (FixedHash.ofBytes g.key))
  /-- An address belongs to one account. -/
  owner : ∀ g ∈ generatedIn P before, ∀ g' ∈ generatedIn P before, g.address = g'.address →
    g.account = g'.account

/-- What was on disk at a point of a run was so in every longer run. -/
theorem OnDisk.concat {before : List Action} {name s b : Bytes} (a : Action)
    (h : OnDisk P before name s b) : OnDisk P (before ++ [a]) name s b := by
  obtain ⟨g, hg, hrest⟩ := h
  exact ⟨g, mem_generatedIn_concat P a hg, hrest⟩

/-- A step that neither generates nor loads keeps the invariant, if the account it logs in
owns what is in memory. -/
theorem separated_of_sameCold {before : List Action} {w w' : Wallet} {a : Action}
    (h : Separated P before w) (hsame : SameCold w w')
    (hnone : generatedBy P (Wallet.run P before) a = none)
    (haddr : w'.Address = w.Address ∨ w'.Address = [] ∨ MemoryOf P before w w'.Address) :
    Separated P (before ++ [a]) w' := by
  have hgen := generatedIn_concat_of_none P hnone
  have hmem : ∀ {Q : Bytes → Bytes → Prop}, ColdMem Q w → ColdMem Q w' := by
    intro Q hQ
    refine ⟨?_, ?_⟩
    · rw [hsame.lookup, hsame.cached]
      exact hQ.sameKeys
    · rw [hsame.lookup, hsame.cached]
      exact hQ.entries
  refine ⟨fun hne => ?_, hmem h.anyMemory, ?_, by rw [hgen]; exact h.ofKey,
    by rw [hgen]; exact h.owner⟩
  · rw [hgen]
    rcases haddr with heq | hnil | hown
    · rw [heq]
      exact hmem (h.memory (by rw [← heq]; exact hne))
    · exact (hne hnil).elim
    · refine hmem (h.anyMemory.mono fun uuid s b hs hb _ => ?_)
      exact hown (uuid, s) (UnorderedMap.mem_pairs.mpr hs) b hb
  · exact coldDisk_mono P (coldDisk_of_sameCold P h.disk hsame)
      fun name s b hQ => hQ.concat P a

/-- A step that loads the file of the account logged in keeps the invariant. -/
theorem separated_of_load (hjson : JsonLaws P) {before : List Action} {w w' : Wallet} {a : Action}
    {o : Order} {uuids : ℕ → H128} (h : Separated P before w)
    (hnone : generatedBy P (Wallet.run P before) a = none) (hreads : ReadsOwnText P o w)
    (hends : LoadEnds P o uuids w w') : Separated P (before ++ [a]) w' := by
  rcases hends with ⟨rfl⟩ | ⟨m, data, key, iv, root, -, hm, hdata, hkey, hroot, rfl⟩
  · exact separated_of_sameCold P h (.refl _) hnone (Or.inl rfl)
  · have hgen := generatedIn_concat_of_none P hnone
    obtain ⟨-, hpair, hhost⟩ := noteAllLoaded_frame uuids 0 root w
    have hd := dictOk_of_read P hjson h.disk hreads hm hdata hkey hroot
    have haddr : (Wallet.noteAllLoaded uuids 0 root w).Address = w.Address :=
      congrArg Prod.fst hpair
    refine ⟨fun hne => ?_, ?_, ?_, by rw [hgen]; exact h.ofKey, by rw [hgen]; exact h.owner⟩
    · rw [haddr] at hne
      rw [hgen, haddr]
      refine coldMem_noteAllLoaded (fun e he => ?_) (h.memory hne)
      obtain ⟨halpha, b, hv, g, hg, hname, hs, hb⟩ := hd.entries e he
      refine ⟨halpha, b, hv, ?_⟩
      rw [← hs, ← hb, ← toHex_injective hname]
      exact hg
    · refine coldMem_noteAllLoaded (fun e he => ?_) h.anyMemory
      obtain ⟨halpha, b, hv, -⟩ := hd.entries e he
      exact ⟨halpha, b, hv, trivial⟩
    · rw [hhost]
      exact coldDisk_mono P h.disk fun name s b hQ => hQ.concat P a

section Generate

variable {before : List Action} {o : Order} {d : GenerateDraws} {k : KeyPair}
  (hk : Wallet.makeKey P d.seed d.rounds = .ok k)

include hk

/-- A generation that goes through adds its address and its key, under the account logged in. -/
theorem generatedIn_generate : generatedIn P (before ++ [.generateAddress o d]) =
    generatedIn P before ++
      [⟨(Wallet.run P before).Address, coldAddress P k, k.m_secret.m_data⟩] := by
  rw [generatedIn_concat]
  unfold generatedBy
  simp only
  rw [hk]
  rfl

/-- Noting a generated key keeps the invariant. -/
theorem separated_noted (h : Separated P before (Wallet.run P before))
    (hclean : EntersClean P before (Wallet.run P before) (.generateAddress o d)) :
    Separated P (before ++ [.generateAddress o d]) (noted P o d k (Wallet.run P before)) := by
  have hgen : generatedIn P (before ++ [.generateAddress o d]) = generatedIn P before ++
      [⟨(Wallet.run P before).Address, coldAddress P k, k.m_secret.m_data⟩] :=
    generatedIn_generate P hk
  have hown : ∀ g ∈ generatedIn P before, g.address = coldAddress P k →
      g.account = (Wallet.run P before).Address := hclean k (by rw [hk]; rfl)
  refine ⟨fun hne => ?_, coldMem_noted P h.anyMemory trivial,
    coldDisk_mono P h.disk fun name s b hQ => hQ.concat P _, ?_, ?_⟩
  · refine coldMem_noted P ((h.memory hne).mono fun uuid s b _ _ hQ =>
      mem_generatedIn_concat P _ hQ) ?_
    rw [hgen]
    exact List.mem_append_right _ (List.mem_singleton.mpr rfl)
  · rw [hgen]
    intro g hg
    rcases List.mem_append.mp hg with hg | hg
    · exact h.ofKey g hg
    · rw [List.mem_singleton.mp hg]
      simp only [FixedHash.ofBytes_m_data]
      rw [← makeKey_eq P hk]
  · rw [hgen]
    intro g hg g' hg' heq
    rcases List.mem_append.mp hg with hg | hg <;> rcases List.mem_append.mp hg' with hg' | hg'
    · exact h.owner g hg g' hg' heq
    · rw [List.mem_singleton.mp hg'] at heq ⊢
      exact hown g hg heq
    · rw [List.mem_singleton.mp hg] at heq ⊢
      exact (hown g' hg' heq.symm).symm
    · rw [List.mem_singleton.mp hg, List.mem_singleton.mp hg']

end Generate

/-- Writing the file of the account logged in keeps the invariant. -/
theorem separated_wroteCold {before : List Action} {o : Order} {key iv : H128} {w : Wallet}
    (h : Separated P before w) : Separated P before (wroteCold P o key iv w) := by
  have hframe : (wroteCold P o key iv w).Address = w.Address ∧
      (wroteCold P o key iv w).address_lookup_ = w.address_lookup_ ∧
      (wroteCold P o key iv w).cached_ = w.cached_ := by
    unfold wroteCold
    split <;> exact ⟨rfl, rfl, rfl⟩
  obtain ⟨haddr, hlookup, hcached⟩ := hframe
  have hmem : ∀ {Q : Bytes → Bytes → Prop}, ColdMem Q w → ColdMem Q (wroteCold P o key iv w) := by
    intro Q hQ
    refine ⟨?_, ?_⟩
    · rw [hlookup, hcached]
      exact hQ.sameKeys
    · rw [hlookup, hcached]
      exact hQ.entries
  refine ⟨fun hne => ?_, hmem h.anyMemory, coldDisk_wroteCold P h.disk fun hne => ?_, h.ofKey,
    h.owner⟩
  · rw [haddr] at hne ⊢
    exact hmem (h.memory hne)
  · exact (h.memory hne).mono fun uuid s b _ _ hQ => ⟨_, hQ, rfl, rfl, rfl⟩

/-- **One step** keeps the invariant. -/
theorem separated_step (hjson : JsonLaws P) {before : List Action} {a : Action}
    (h : Separated P before (Wallet.run P before))
    (hclean : EntersClean P before (Wallet.run P before) a)
    (hreads : ReadsStep P (Wallet.run P before) a) :
    Separated P (before ++ [a]) (Wallet.step P (Wallet.run P before) a) := by
  have henter : ∀ {w' : Wallet}, w'.Address = (enters P (Wallet.run P before) a).getD
      (Wallet.run P before).Address →
      (∀ account ∈ enters P (Wallet.run P before) a,
        MemoryOf P before (Wallet.run P before) account) →
      w'.Address = (Wallet.run P before).Address ∨ w'.Address = [] ∨
        MemoryOf P before (Wallet.run P before) w'.Address := by
    intro w' haddr hown
    cases hen : enters P (Wallet.run P before) a with
    | none =>
        rw [hen] at haddr
        exact Or.inl haddr
    | some account =>
        rw [hen] at haddr hown
        rw [haddr]
        exact Or.inr (Or.inr (hown account rfl))
  cases a with
  | restart =>
      refine ⟨fun hne => (hne rfl).elim, ⟨fun _ => Iff.rfl, fun uuid s b hs => by cases hs⟩,
        coldDisk_mono P h.disk fun name s b hQ => hQ.concat P _, ?_, ?_⟩
      · rw [generatedIn_concat_of_none P rfl]
        exact h.ofKey
      · rw [generatedIn_concat_of_none P rfl]
        exact h.owner
  | createAccount o name password d =>
      exact separated_of_sameCold P h (sameCold_createAccount P o name password d _) rfl
        (henter (address_createAccount P o name password d _) hclean)
  | login o password =>
      exact separated_of_sameCold P h (sameCold_login P o password _) rfl
        (henter (address_login P o password _) hclean)
  | logout o =>
      exact separated_of_sameCold P h (sameCold_logout P o _) rfl
        ((address_logout P o _).imp id Or.inl)
  | loadAddresses o uuids =>
      exact separated_of_load P hjson h rfl hreads (loadAddresses_ends P hjson o uuids _)
  | getAddresses o uuids =>
      exact separated_of_load P hjson h rfl hreads (getAddresses_ends P hjson o uuids _).1
  | generateAddress o d =>
      rcases generateAddress_leaves P hjson o d (Wallet.run P before) with ⟨e, hk, hw⟩ |
        ⟨k, hk, hw⟩ | ⟨k, key, iv, hk, hkey, hw⟩
      · rw [hw]
        refine separated_of_sameCold P h ⟨rfl, rfl, rfl, fun _ _ => Iff.rfl⟩ ?_ (Or.inl rfl)
        unfold generatedBy
        simp only
        rw [hk]
      · rw [hw]
        exact separated_noted P hk h hclean
      · rw [hw]
        exact separated_wroteCold P (separated_noted P hk h hclean)

/-- **Every run** whose steps are clean keeps memory and files separated. -/
theorem separated_run (hjson : JsonLaws P) {as : List Action} (hread : WrongKeyUnreadable P as)
    (hclean : EveryStep (Wallet.step P) {} (EntersClean P) as) :
    Separated P as (Wallet.run P as) := by
  have hstart : Separated P [] {} :=
    { memory := fun hne => (hne rfl).elim
      anyMemory := ⟨fun _ => Iff.rfl, fun uuid s b hs => by cases hs⟩
      disk := fun name data hdata => by cases hdata
      ofKey := fun g hg => by cases hg
      owner := fun g hg => by cases hg }
  exact EveryStep.invariant (I := Separated P) hstart
    (fun done a hI hG => separated_step P hjson hI hG.1 hG.2) (hclean.and hread)

/-! ## What follows -/

/-- The addresses listed are those of the account logged in. -/
theorem ownStep_getAddresses (hjson : JsonLaws P) {before : List Action} {o : Order}
    {uuids : ℕ → H128} (h : Separated P before (Wallet.run P before))
    (hreads : ReadsOwnText P o (Wallet.run P before)) :
    OwnStep P before (Wallet.run P before) (.getAddresses o uuids) := by
  intro hne l hl s hs
  obtain ⟨hends, hlist⟩ := getAddresses_ends P hjson o uuids (Wallet.run P before)
  obtain ⟨uuid, hlookup⟩ := hlist l hl s hs
  have hsep := separated_of_load P (a := .getAddresses o uuids) hjson h rfl hreads hends
  have haddr : (Exec.finalState (Wallet.getAddresses P o uuids) (Wallet.run P before)).Address =
      (Wallet.run P before).Address := by
    rcases hends with ⟨hw⟩ | ⟨m, data, key, iv, root, -, -, -, -, -, hw⟩
    · rw [hw]
    · rw [hw]
      exact congrArg Prod.fst (noteAllLoaded_frame uuids 0 root _).2.1
  have hmem := hsep.memory (by rw [haddr]; exact hne)
  have huuid := (hmem.sameKeys uuid).mp (AList.lookup_isSome.mp (by rw [hlookup]; rfl))
  obtain ⟨b, hb⟩ := Option.isSome_iff_exists.mp (AList.lookup_isSome.mpr huuid)
  have hg := (hmem.entries uuid s b hlookup hb).2
  rw [haddr, generatedIn_concat_of_none P rfl] at hg
  exact ⟨_, hg, rfl, rfl⟩

/-- The file written holds no key of another account. -/
theorem ownStep_generateAddress (hjson : JsonLaws P) {before : List Action} {o : Order}
    {d : GenerateDraws} (h : Separated P before (Wallet.run P before))
    (hclean : EntersClean P before (Wallet.run P before) (.generateAddress o d)) :
    OwnStep P before (Wallet.run P before) (.generateAddress o d) := by
  intro hne s hs key iv hkey data root hdata hroot e he b hb g hg hgb
  have hends := generateAddress_ends P hjson o d (Wallet.run P before)
  rw [show Wallet.step P (Wallet.run P before) (.generateAddress o d) =
    Exec.finalState (Wallet.generateAddress P o d) (Wallet.run P before) from rfl] at hdata
  unfold Exec.result? at hs
  unfold Exec.finalState at hdata
  generalize Wallet.generateAddress P o d (Wallet.run P before) = r at hends hs hdata
  cases hends with
  | noKey e hk => cases hs
  | threw e k hk => cases hs
  | done k key' iv' hk hkey' =>
      rw [hkey] at hkey'
      cases hkey'
      have hsep := separated_noted P hk h hclean
      have hname : toHex (noted P o d k (Wallet.run P before)).Address ≠ [] := fun hnil => by
        exact hne (toHex_injective (show toHex (Wallet.run P before).Address = toHex [] from hnil))
      -- The file is the encryption of the dictionary in memory, and reads back as it.
      have hfile : data = P.encryptSymNoAuth key iv
          (coldText P o (noted P o d k (Wallet.run P before))) := by
        simp only [wroteCold, if_neg hname, Host.noteCtrCall] at hdata
        rw [show toHex (Wallet.run P before).Address =
          toHex (noted P o d k (Wallet.run P before)).Address from rfl,
          UnorderedMap.lookup_insert_eq, if_pos rfl] at hdata
        exact (Option.some.inj hdata).symm
      have hdict := dictOk_coldDictionary (hsep.memory hne) o
      rw [hfile, Platform.decryptSymNoAuth_encryptSymNoAuth, coldText,
        hjson.read_write _ hdict.sorted hdict.plain] at hroot
      cases hroot
      obtain ⟨-, b', hv, hown⟩ := hdict.entries e he
      rw [hv] at hb
      have hbb : b' = b := toHex_injective (Option.some.inj hb)
      subst hbb
      -- Two generated addresses with one key are one address, and it has one account.
      refine hsep.owner g hg _ hown ?_
      rw [hsep.ofKey g hg, hsep.ofKey _ hown, hgb]

/-- **Cold accounts are isolated** in a run that logs in an account only over memory that
is its own. -/
theorem coldIsolated_of_entersClean (hjson : JsonLaws P) (as : List Action)
    (hread : WrongKeyUnreadable P as)
    (hclean : EveryStep (Wallet.step P) {} (EntersClean P) as) : ColdIsolated P as := by
  have hsep : ∀ before rest, as = before ++ rest → Separated P before (Wallet.run P before) := by
    rintro before rest rfl
    exact separated_run P hjson hread.of_append hclean.of_append
  refine ⟨fun before a rest has => ?_, fun before rest has hne g hg hother o => ?_⟩
  · have h := hsep before _ has
    have hG := hclean before a rest has
    have hR := hread before a rest has
    cases a with
    | getAddresses o uuids => exact ownStep_getAddresses P hjson h hR
    | generateAddress o d => exact ownStep_generateAddress P hjson h hG
    | _ => exact trivial
  · have h := hsep before rest has
    by_contra hfound
    obtain ⟨uuid, b, hs, hb, -⟩ := exists_entry_of_lookupPrivate hfound
    have hown := ((h.memory hne).entries uuid _ b hs hb).2
    exact hother (h.owner g hg _ hown rfl)

/-- An account generates an address and logs out, and a second account is created. -/
def sharedRun : List Action :=
  [Reference.create [1] [2] 1, Reference.generate 7, Reference.leave,
    Reference.create [3] [4] 3, Reference.list 60]

/-- The second account is shown the address of the first. -/
theorem cold_not_isolated : ¬ ColdIsolated Reference.reference sharedRun := by
  rintro ⟨-, h⟩
  have hzero := h _ [] (List.append_nil _).symm (by decide +kernel)
    ⟨toTronAddress (Reference.reference.keyPair (Reference.smallSecret 1)).m_address,
      Reference.generated 7, (Reference.smallSecret 7).m_data⟩ (by decide +kernel)
    (by decide +kernel) Order.held
  revert hzero
  decide +kernel

/-- Accounts used one in each process are isolated. -/
theorem coldIsolated_restarted : ColdIsolated Reference.reference
    [Reference.create [1] [2] 1, Reference.generate 7, Reference.leave, .restart,
      Reference.create [3] [4] 3, Reference.list 60] :=
  coldIsolated_of_entersClean Reference.reference Reference.reference_json _
    (EveryStep.of_check (by decide +kernel)) (EveryStep.of_check (by decide +kernel))

end TronWallet.Theorems
