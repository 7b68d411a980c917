import TronWallet.Theorems.ColdKeys

/-!
# A cold file while it is written

`GenerateAddress` writes the whole cold file anew: the file is truncated when it is opened,
and filled afterwards.  A process that stops in between leaves the beginning of the new text,
which is no JSON, and the old dictionary is gone; and as the result of the write is ignored,
an address is returned for a file that could not be opened.

`durable_and_atomic_iff` says for which outcomes of the write both are excluded.
-/

set_option autoImplicit false

namespace TronWallet.Theorems

open TronWallet.Lib TronWallet.Model TronWallet.Analysis

variable (P : Platform)

/-! ## What is on disk -/

/-- The dictionary a file is decrypted to. -/
def decryptedDictionary (key iv : H128) (data : Bytes) : Option Dictionary :=
  match P.jsonRead (P.decryptSymNoAuth key iv data) with
  | some (.dictionary d) => some d
  | _ => none

/-- The dictionary in the cold file of the account logged in, as `LoadAddresses` would read
it. -/
def coldOnDisk (o : Order) (w : Wallet) : Option Dictionary :=
  match coldKey P o (manager o w) (toAddress w.Address) with
  | .ok (some (key, iv)) =>
    (w.host.coldWallet.lookup (toHex w.Address)).bind (decryptedDictionary P key iv)
  | _ => none

/-- What the wallet relies on of the JSON text of a dictionary: the beginning of it is no
JSON. -/
def TornUnreadable : Prop :=
  ∀ d : Dictionary, d.Sorted → Plain d → ∀ n < (P.jsonWrite (.dictionary d)).length,
    P.jsonRead ((P.jsonWrite (.dictionary d)).take n) = none

/-! ## The property and the condition -/

/-- An account is logged in and its cold keys are loaded: memory holds every entry of the
file, and no other key under its address; the identifier and the address drawn are new. -/
structure ColdReady (o : Order) (d : GenerateDraws) (w : Wallet) : Prop where
  loggedIn : w.Address ≠ []
  tables : ColdMem (fun _ _ => True) w
  loaded : ∀ old, coldOnDisk P o w = some old → ∀ e ∈ old,
    (∃ uuid, w.address_lookup_.lookup uuid = some e.1) ∧
      ∀ uuid b, w.address_lookup_.lookup uuid = some e.1 → w.cached_.lookup uuid = some b →
        e.2 = .string (toHex b)
  newUuid : d.uuid ∉ w.address_lookup_
  newAddress : ∀ k, Wallet.makeKey P d.seed d.rounds = .ok k →
    ∀ uuid, w.address_lookup_.lookup uuid ≠ some (coldAddress P k)

/-- The wallet that is left when the write gets so far. -/
def leftBy (outcome : WriteOutcome) (o : Order) (d : GenerateDraws) (w : Wallet) : Wallet :=
  Exec.finalState (Wallet.generateAddressWith P outcome o d) w

/-- **Generation is durable**: an address that is returned is in the file with its key, with
every address in memory and every entry the file had before. -/
def Durable (outcome : WriteOutcome) (o : Order) (d : GenerateDraws) (w : Wallet) : Prop :=
  ∀ address, Exec.result? (Wallet.generateAddressWith P outcome o d) w = some (some address) →
    ∃ k new, Wallet.makeKey P d.seed d.rounds = .ok k ∧
      coldOnDisk P o (leftBy P outcome o d w) = some new ∧
      new.find address = some (.string (toHex k.m_secret.m_data)) ∧
      (∀ uuid s, w.address_lookup_.lookup uuid = some s → (new.find s).isSome) ∧
      ∀ old, coldOnDisk P o w = some old → ∀ e ∈ old, e ∈ new

/-- **Generation is atomic**: the file holds the dictionary it held before, or the one with
the new key. -/
def Atomic (outcome : WriteOutcome) (o : Order) (d : GenerateDraws) (w : Wallet) : Prop :=
  coldOnDisk P o (leftBy P outcome o d w) = coldOnDisk P o w ∨
    ∃ k, Wallet.makeKey P d.seed d.rounds = .ok k ∧
      coldOnDisk P o (leftBy P outcome o d w) = some ((noted P o d k w).coldDictionary o)

/-- The condition: where the write is reached, it succeeds, or the process stops before the
file is opened, after the last byte, or when there was no dictionary in the file. -/
def WritesThrough (outcome : WriteOutcome) (o : Order) (d : GenerateDraws) (w : Wallet) : Prop :=
  ∀ k key iv, Wallet.makeKey P d.seed d.rounds = .ok k →
    coldKey P o (manager o w) (toAddress w.Address) = .ok (some (key, iv)) →
      match outcome with
      | .written | .stoppedBefore => True
      | .stopped n => coldOnDisk P o w = none ∨ (coldText P o (noted P o d k w)).length ≤ n
      | .notOpened => False

/-! ## What is left -/

/-- The wallet whose cold file has been written so far. -/
def wroteAsFar (outcome : WriteOutcome) (o : Order) (key iv : H128) (w : Wallet) : Wallet :=
  { recorded P o key iv w with host := { (recorded P o key iv w).host with
    coldWallet := outcome.writeFile (toHex w.Address) (P.encryptSymNoAuth key iv (coldText P o w))
      w.host.coldWallet } }

/-- The ways `GenerateAddress` can end when the write gets so far. -/
inductive GenerateWithEnds (outcome : WriteOutcome) (o : Order) (d : GenerateDraws) (w : Wallet) :
    EStateM.Result Exn Wallet (Option Bytes) → Prop where
  | noKey (e : Exn) (hk : Wallet.makeKey P d.seed d.rounds = .error e) :
      GenerateWithEnds outcome o d w (.error e (withOpened w (opened o w)))
  | threw (e : Exn) (k : KeyPair) (hk : Wallet.makeKey P d.seed d.rounds = .ok k)
      (hnone : ∀ key iv,
        coldKey P o (manager o w) (toAddress w.Address) ≠ .ok (some (key, iv))) :
      GenerateWithEnds outcome o d w (.error e (noted P o d k w))
  | reached (k : KeyPair) (key iv : H128) (hk : Wallet.makeKey P d.seed d.rounds = .ok k)
      (hkey : coldKey P o (manager o w) (toAddress w.Address) = .ok (some (key, iv))) :
      GenerateWithEnds outcome o d w
        (.ok (if outcome.stops then none else some (coldAddress P k))
          (wroteAsFar P outcome o key iv (noted P o d k w)))

/-- `GenerateAddress` ends in one of these ways, whatever becomes of the write. -/
theorem generateAddressWith_ends (hjson : JsonLaws P) {outcome : WriteOutcome} {o : Order}
    {d : GenerateDraws} {w : Wallet} (haddr : w.Address ≠ []) :
    GenerateWithEnds P outcome o d w (Wallet.generateAddressWith P outcome o d w) := by
  have hname : toHex w.Address ≠ [] := by
    intro hnil
    exact haddr (toHex_injective hnil)
  have h := generateAddressUpTo_ends P hjson o d w fun name data address => do
    Wallet.writeColdFileWith outcome name data
    return if outcome.stops then none else some address
  unfold Wallet.generateAddressWith
  generalize Wallet.generateAddressUpTo P o d _ w = r at h
  cases h with
  | noKey e hk => exact .noKey e hk
  | threw e k hk hnone => exact .threw e k hk hnone
  | reached k key iv hk hkey =>
      have hend : GenerateWithEnds P outcome o d w (.ok _ _) := .reached k key iv hk hkey
      unfold Wallet.writeColdFileWith
      simp only [Exec.bind_apply, Exec.modify_apply, Exec.pure_apply, if_neg hname]
      exact hend

/-- What is on disk of a wallet with the same key manager and account. -/
theorem coldOnDisk_of_key {o : Order} {w w' : Wallet} {key iv : H128}
    (hkey : coldKey P o (manager o w) (toAddress w.Address) = .ok (some (key, iv)))
    (hmanager : manager o w' = manager o w) (haddr : w'.Address = w.Address) :
    coldOnDisk P o w' =
      (w'.host.coldWallet.lookup (toHex w.Address)).bind (decryptedDictionary P key iv) := by
  unfold coldOnDisk
  rw [hmanager, haddr, hkey]

/-- What is found in a dictionary is one of its entries. -/
theorem mem_of_find {d : Dictionary} {key : Bytes} {value : Value} (h : d.find key = some value) :
    (key, value) ∈ d := by
  induction d with
  | nil => cases h
  | cons e rest ih =>
      rw [Dictionary.find] at h
      by_cases heq : key = e.1
      · rw [if_pos heq] at h
        cases h
        rw [heq]
        exact List.mem_cons_self
      · rw [if_neg heq] at h
        exact List.mem_cons_of_mem _ (ih h)

/-- Opening the key manager and noting a key leave the file as it is. -/
theorem coldOnDisk_withOpened (o : Order) (w : Wallet) :
    coldOnDisk P o (withOpened w (opened o w)) = coldOnDisk P o w := rfl

/-- Noting a key in memory does not touch the file. -/
theorem coldOnDisk_noted (o : Order) (d : GenerateDraws) (k : KeyPair) (w : Wallet) :
    coldOnDisk P o (noted P o d k w) = coldOnDisk P o w := rfl

/-- The beginning of a text that has been encrypted is decrypted by itself. -/
theorem decryptSymNoAuth_take (key iv : H128) (cipher : Bytes) (n : ℕ) :
    P.decryptSymNoAuth key iv (cipher.take n) = (P.decryptSymNoAuth key iv cipher).take n := by
  rw [Platform.decryptSymNoAuth_eq, Platform.decryptSymNoAuth_eq]
  unfold Platform.ctrMode
  apply List.ext_getElem
  · simp
  · intro i h₁ h₂
    simp

section Text

variable {P} {o : Order} {key iv : H128} {w : Wallet} (hmem : ColdMem (fun _ _ => True) w)

include hmem

/-- A whole file is decrypted to its dictionary. -/
theorem decryptedDictionary_whole (hjson : JsonLaws P) :
    decryptedDictionary P key iv (P.encryptSymNoAuth key iv (coldText P o w)) =
      some (w.coldDictionary o) := by
  have hdict := dictOk_coldDictionary hmem o
  unfold decryptedDictionary coldText
  rw [Platform.decryptSymNoAuth_encryptSymNoAuth, hjson.read_write _ hdict.sorted hdict.plain]

/-- The beginning of a file is decrypted to nothing. -/
theorem decryptedDictionary_torn (htorn : TornUnreadable P) {n : ℕ}
    (hn : n < (coldText P o w).length) :
    decryptedDictionary P key iv ((P.encryptSymNoAuth key iv (coldText P o w)).take n) = none := by
  have hdict := dictOk_coldDictionary hmem o
  unfold decryptedDictionary
  rw [decryptSymNoAuth_take, Platform.decryptSymNoAuth_encryptSymNoAuth]
  unfold coldText at hn ⊢
  rw [htorn _ hdict.sorted hdict.plain n hn]

end Text

/-! ## When the file is whole -/

section Outcome

variable {P} {outcome : WriteOutcome} {o : Order} {d : GenerateDraws} {w : Wallet} {k : KeyPair}
  {key iv : H128} (hready : ColdReady P o d w) (hk : Wallet.makeKey P d.seed d.rounds = .ok k)
  (hkey : coldKey P o (manager o w) (toAddress w.Address) = .ok (some (key, iv)))

include hk hkey in
/-- What the condition says of a write that is reached. -/
theorem writesThrough_iff :
    WritesThrough P outcome o d w ↔
      match outcome with
      | .written | .stoppedBefore => True
      | .stopped n => coldOnDisk P o w = none ∨ (coldText P o (noted P o d k w)).length ≤ n
      | .notOpened => False := by
  constructor
  · intro h
    exact h k key iv hk hkey
  · intro h k' key' iv' hk' hkey'
    rw [hk] at hk'
    cases hk'
    exact h

include hkey in
/-- What is on disk when the write has got so far. -/
theorem coldOnDisk_wroteAsFar :
    coldOnDisk P o (wroteAsFar P outcome o key iv (noted P o d k w)) =
      ((outcome.writeFile (toHex w.Address)
        (P.encryptSymNoAuth key iv (coldText P o (noted P o d k w)))
        w.host.coldWallet).lookup (toHex w.Address)).bind (decryptedDictionary P key iv) :=
  coldOnDisk_of_key P hkey rfl rfl

include hready hk in
/-- The new dictionary holds the new key, every address and every entry there was. -/
theorem new_entries :
    ((noted P o d k w).coldDictionary o).find (coldAddress P k) =
        some (.string (toHex k.m_secret.m_data)) ∧
      (∀ uuid s, w.address_lookup_.lookup uuid = some s →
        (((noted P o d k w).coldDictionary o).find s).isSome) ∧
      ∀ old, coldOnDisk P o w = some old → ∀ e ∈ old, e ∈ (noted P o d k w).coldDictionary o := by
  have hlook := noted_lookup P (o := o) (k := k) hready.tables hready.newUuid
  have hnoted := coldMem_noted P (o := o) (d := d) (k := k) hready.tables trivial
  have hfind : ∀ uuid s, (noted P o d k w).address_lookup_.lookup uuid = some s →
      ∃ uuid' b', (noted P o d k w).address_lookup_.lookup uuid' = some s ∧
        (noted P o d k w).cached_.lookup uuid' = some b' ∧
        ((noted P o d k w).coldDictionary o).find s = some (.string (toHex b')) := by
    intro uuid s hs
    obtain ⟨b, hb⟩ := Option.isSome_iff_exists.mp (AList.lookup_isSome.mpr
      ((hnoted.sameKeys uuid).mp (AList.lookup_isSome.mp (by rw [hs]; rfl))))
    exact find_coldDictionary hnoted o hs hb
  have hold : ∀ uuid s, w.address_lookup_.lookup uuid = some s →
      (noted P o d k w).address_lookup_.lookup uuid = some s := by
    intro uuid s hs
    rw [(hlook uuid).1, if_neg]
    · exact hs
    · rintro rfl
      exact hready.newUuid (AList.lookup_isSome.mp (by rw [hs]; rfl))
  refine ⟨?_, ?_, ?_⟩
  · obtain ⟨uuid', b', hs', hb', hentry⟩ := hfind d.uuid (coldAddress P k)
      (by rw [(hlook d.uuid).1, if_pos rfl])
    rw [(hlook uuid').1] at hs'
    rw [(hlook uuid').2] at hb'
    by_cases hu : uuid' = d.uuid
    · rw [if_pos hu] at hb'
      rw [hentry, Option.some.inj hb']
    · rw [if_neg hu] at hs'
      exact absurd hs' (hready.newAddress k hk uuid')
  · intro uuid s hs
    obtain ⟨uuid', b', -, -, hentry⟩ := hfind uuid s (hold uuid s hs)
    rw [hentry]
    rfl
  · intro old hdisk e he
    obtain ⟨⟨uuid, hs⟩, hown⟩ := hready.loaded old hdisk e he
    obtain ⟨uuid', b', hs', hb', hentry⟩ := hfind uuid e.1 (hold uuid e.1 hs)
    rw [(hlook uuid').1] at hs'
    rw [(hlook uuid').2] at hb'
    by_cases hu : uuid' = d.uuid
    · -- the new address is not one the file had
      rw [if_pos hu] at hs'
      exact absurd (hs.trans hs'.symm) (hready.newAddress k hk uuid)
    · rw [if_neg hu] at hs' hb'
      rw [← hown uuid' b' hs' hb'] at hentry
      exact (Dictionary.find_eq_some_iff_mem (dictOk_coldDictionary hnoted o).sorted).mp hentry

include hready hkey

/-- A write that succeeds leaves the new dictionary. -/
theorem coldOnDisk_written (hjson : JsonLaws P) :
    coldOnDisk P o (wroteAsFar P .written o key iv (noted P o d k w)) =
      some ((noted P o d k w).coldDictionary o) := by
  have hnoted := coldMem_noted P (o := o) (d := d) (k := k) hready.tables trivial
  rw [coldOnDisk_wroteAsFar hkey]
  unfold WriteOutcome.writeFile
  rw [AList.lookup_insert, Option.bind_some, decryptedDictionary_whole hnoted hjson]

/-- A write that stops leaves the new dictionary when all of it has been written, and none
otherwise. -/
theorem coldOnDisk_stopped (hjson : JsonLaws P) (htorn : TornUnreadable P) (n : ℕ) :
    coldOnDisk P o (wroteAsFar P (.stopped n) o key iv (noted P o d k w)) =
      if (coldText P o (noted P o d k w)).length ≤ n then
        some ((noted P o d k w).coldDictionary o)
      else none := by
  have hnoted := coldMem_noted P (o := o) (d := d) (k := k) hready.tables trivial
  rw [coldOnDisk_wroteAsFar hkey]
  unfold WriteOutcome.writeFile
  rw [AList.lookup_insert, Option.bind_some]
  by_cases hn : (coldText P o (noted P o d k w)).length ≤ n
  · rw [if_pos hn, List.take_of_length_le (by rw [Platform.encryptSymNoAuth_length]; exact hn),
      decryptedDictionary_whole hnoted hjson]
  · rw [if_neg hn, decryptedDictionary_torn hnoted htorn (not_le.mp hn)]

end Outcome

/-- **Exactly the outcomes for which generation is durable and atomic.** -/
theorem durable_and_atomic_iff (hjson : JsonLaws P) (htorn : TornUnreadable P)
    {outcome : WriteOutcome} {o : Order} {d : GenerateDraws} {w : Wallet}
    (hready : ColdReady P o d w) :
    Durable P outcome o d w ∧ Atomic P outcome o d w ↔ WritesThrough P outcome o d w := by
  have hends : GenerateWithEnds P outcome o d w (Wallet.generateAddressWith P outcome o d w) :=
    generateAddressWith_ends P hjson hready.loggedIn
  unfold Durable Atomic leftBy Exec.finalState Exec.result?
  generalize Wallet.generateAddressWith P outcome o d w = r at hends
  cases hends with
  | noKey e hk =>
      refine iff_of_true ⟨?_, Or.inl (coldOnDisk_withOpened P o w)⟩ ?_
      · intro address hreturned
        cases hreturned
      · intro k key iv hk'
        rw [hk] at hk'
        cases hk'
  | threw e k hk hnone =>
      refine iff_of_true ⟨?_, Or.inl (coldOnDisk_noted P o d k w)⟩ ?_
      · intro address hreturned
        cases hreturned
      · intro k' key iv hk' hkey
        exact absurd hkey (hnone key iv)
  | reached k key iv hk hkey =>
      rw [writesThrough_iff hk hkey]
      dsimp only
      cases outcome with
      | written =>
          have hdisk := coldOnDisk_written (k := k) hready hkey hjson
          obtain ⟨hnew, haddresses, hentries⟩ := new_entries hready hk
          refine iff_of_true ⟨?_, Or.inr ⟨k, hk, hdisk⟩⟩ trivial
          intro address hreturned
          cases hreturned
          exact ⟨k, _, hk, hdisk, hnew, haddresses, hentries⟩
      | stoppedBefore =>
          have hsame : coldOnDisk P o (wroteAsFar P .stoppedBefore o key iv (noted P o d k w)) =
              coldOnDisk P o w := by
            rw [coldOnDisk_wroteAsFar hkey, coldOnDisk_of_key P hkey rfl rfl]
            rfl
          refine iff_of_true ⟨?_, Or.inl hsame⟩ trivial
          intro address hreturned
          cases hreturned
      | stopped n =>
          rw [coldOnDisk_stopped hready hkey hjson htorn n]
          by_cases hn : (coldText P o (noted P o d k w)).length ≤ n
          · rw [if_pos hn]
            refine iff_of_true ⟨?_, Or.inr ⟨k, hk, rfl⟩⟩ (Or.inr hn)
            intro address hreturned
            cases hreturned
          · rw [if_neg hn]
            constructor
            · rintro ⟨-, hsame | ⟨k', -, hnew⟩⟩
              · exact Or.inl hsame.symm
              · cases hnew
            · rintro (hnone | hle)
              · refine ⟨?_, Or.inl hnone.symm⟩
                intro address hreturned
                cases hreturned
              · exact absurd hle hn
      | notOpened =>
          have hsame : coldOnDisk P o (wroteAsFar P .notOpened o key iv (noted P o d k w)) =
              coldOnDisk P o w := by
            rw [coldOnDisk_wroteAsFar hkey, coldOnDisk_of_key P hkey rfl rfl]
            rfl
          refine iff_of_false ?_ not_false
          rintro ⟨hdurable, -⟩
          -- the address that is returned would have been in the file before
          obtain ⟨k', new, -, hdisk, hfind, -⟩ := hdurable _ rfl
          rw [hsame] at hdisk
          obtain ⟨⟨uuid, hs⟩, -⟩ := hready.loaded new hdisk _ (mem_of_find hfind)
          exact hready.newAddress k hk uuid hs

/-! ## The next generation -/

/-- Different keys in memory have different addresses. -/
def DistinctAddresses (w : Wallet) : Prop :=
  ∀ uuid uuid' s, w.address_lookup_.lookup uuid = some s →
    w.address_lookup_.lookup uuid' = some s → uuid = uuid'

/-- Noting a key under a new address keeps the addresses different. -/
theorem distinctAddresses_noted {o : Order} {d : GenerateDraws} {k : KeyPair} {w : Wallet}
    (hready : ColdReady P o d w) (hk : Wallet.makeKey P d.seed d.rounds = .ok k)
    (hdistinct : DistinctAddresses w) : DistinctAddresses (noted P o d k w) := by
  have hlook := noted_lookup P (o := o) (k := k) hready.tables hready.newUuid
  intro uuid uuid' s hs hs'
  rw [(hlook uuid).1] at hs
  rw [(hlook uuid').1] at hs'
  by_cases hu : uuid = d.uuid
  · by_cases hu' : uuid' = d.uuid
    · rw [hu, hu']
    · rw [if_pos hu] at hs
      rw [if_neg hu', ← hs] at hs'
      exact absurd hs' (hready.newAddress k hk uuid')
  · rw [if_neg hu] at hs
    by_cases hu' : uuid' = d.uuid
    · rw [if_pos hu', ← hs] at hs'
      exact absurd hs'.symm (hready.newAddress k hk uuid)
    · rw [if_neg hu'] at hs'
      exact hdistinct uuid uuid' s hs hs'

/-- A generation whose write succeeds leaves the wallet ready for the next one, which draws an
identifier and an address that are new in its turn. -/
theorem coldReady_written (hjson : JsonLaws P) {o : Order} {d d' : GenerateDraws} {w : Wallet}
    {k : KeyPair} {key iv : H128} (hready : ColdReady P o d w) (hdistinct : DistinctAddresses w)
    (hk : Wallet.makeKey P d.seed d.rounds = .ok k)
    (hkey : coldKey P o (manager o w) (toAddress w.Address) = .ok (some (key, iv)))
    (huuid : d'.uuid ∉ (noted P o d k w).address_lookup_)
    (haddress : ∀ k', Wallet.makeKey P d'.seed d'.rounds = .ok k' →
      ∀ uuid, (noted P o d k w).address_lookup_.lookup uuid ≠ some (coldAddress P k')) :
    ColdReady P o d' (wroteAsFar P .written o key iv (noted P o d k w)) := by
  have hnoted := coldMem_noted P (o := o) (d := d) (k := k) hready.tables trivial
  refine ⟨hready.loggedIn, ⟨hnoted.sameKeys, hnoted.entries⟩, ?_, huuid, haddress⟩
  intro old hold e he
  rw [coldOnDisk_written hready hkey hjson] at hold
  cases hold
  -- each entry of the dictionary is a pair in memory
  have hpairs : ColdMem (fun s b => ∃ uuid,
      (noted P o d k w).address_lookup_.lookup uuid = some s ∧
        (noted P o d k w).cached_.lookup uuid = some b) (noted P o d k w) :=
    hnoted.mono fun uuid s b hs hb _ => ⟨uuid, hs, hb⟩
  obtain ⟨-, b, hvalue, uuid, hs, hb⟩ := (dictOk_coldDictionary hpairs o).entries e he
  refine ⟨⟨uuid, hs⟩, fun uuid' b' hs' hb' => ?_⟩
  have hsame : uuid' = uuid := distinctAddresses_noted P hready hk hdistinct uuid' uuid e.1 hs' hs
  rw [hsame] at hb'
  rw [hvalue, Option.some.inj (hb.symm.trans hb')]

/-! ## Given files -/

section Reader

open Reference

/-- A text that is read is not the beginning of another one. -/
theorem readEntries_append {m : JsonMode} {p q : Bytes} {l : List (Bytes × Bytes)}
    (h : readEntries m p = some l) (hq : q ≠ []) : readEntries m (p ++ q) = none := by
  induction p generalizing m l with
  | nil =>
      obtain ⟨c, cs, rfl⟩ := List.exists_cons_of_ne_nil hq
      cases m with
      | done => rfl
      | _ => cases h
  | cons c p ih =>
      rw [List.cons_append]
      cases m with
      | done => cases h
      | first =>
          rw [readEntries] at h ⊢
          split_ifs at h ⊢
          · exact ih h
          · exact ih h
      | entry =>
          rw [readEntries] at h ⊢
          split_ifs at h ⊢
          exact ih h
      | key k =>
          rw [readEntries] at h ⊢
          split_ifs at h ⊢
          · exact ih h
          · exact ih h
      | colon k =>
          rw [readEntries] at h ⊢
          split_ifs at h ⊢
          exact ih h
      | quote k =>
          rw [readEntries] at h ⊢
          split_ifs at h ⊢
          exact ih h
      | value k v =>
          rw [readEntries] at h ⊢
          split_ifs at h ⊢
          · obtain ⟨l', hl', -⟩ := Option.map_eq_some_iff.mp h
            rw [ih hl', Option.map_none]
          · exact ih h
      | next =>
          rw [readEntries] at h ⊢
          split_ifs at h ⊢
          · exact ih h
          · exact ih h

/-- The beginning of a text of the platform is no JSON. -/
theorem reference_torn : TornUnreadable reference := by
  intro d _ hplain n hn
  have hwhole : jsonRead (jsonWrite (.dictionary d)) = some (.dictionary d) :=
    jsonRead_jsonWrite hplain
  change jsonRead ((jsonWrite (.dictionary d)).take n) = none
  change n < (jsonWrite (.dictionary d)).length at hn
  obtain ⟨rest, hrest⟩ : ∃ rest, jsonWrite (.dictionary d) = 123 :: rest := ⟨_, rfl⟩
  rw [hrest] at hwhole hn ⊢
  cases n with
  | zero => rfl
  | succ n =>
      rw [List.length_cons] at hn
      rw [List.take_succ_cons]
      unfold jsonRead at hwhole ⊢
      cases hread : readEntries .first (rest.take n) with
      | none => simp [hread]
      | some l =>
          have hdrop : rest.drop n ≠ [] := by
            rw [Ne, List.drop_eq_nil_iff]
            omega
          have hnone := readEntries_append hread hdrop
          rw [List.take_append_drop] at hnone
          simp [hnone] at hwhole

/-- A wallet with one account, which has no cold keys. -/
def newWallet : Wallet := Wallet.run reference [create [1] [2] 1]

/-- What is drawn for its first cold key. -/
def firstDraws : GenerateDraws := ⟨smallSecret 7, 0, repeated 16 7⟩

/-- The account has no cold keys in memory. -/
theorem cold_newWallet : newWallet.address_lookup_ = ∅ ∧ newWallet.cached_ = ∅ :=
  ⟨AList.ext (by decide +kernel), AList.ext (by decide +kernel)⟩

/-- The wallet is ready for its first cold key. -/
theorem coldReady_newWallet : ColdReady reference Order.held firstDraws newWallet := by
  have hnone : coldOnDisk reference Order.held newWallet = none := by decide +kernel
  refine ⟨by decide +kernel, ⟨?_, ?_⟩, ?_, ?_, ?_⟩
  · intro uuid
    rw [cold_newWallet.1, cold_newWallet.2]
  · intro uuid s b hs
    rw [cold_newWallet.1] at hs
    cases hs
  · intro old hold
    rw [hnone] at hold
    cases hold
  · rw [cold_newWallet.1]
    exact AList.notMem_empty _
  · intro k _ uuid
    rw [cold_newWallet.1]
    intro hs
    cases hs

/-- The wallet after that key has been generated and its file written. -/
def keptWallet : Wallet := leftBy reference .written Order.held firstDraws newWallet

/-- What is drawn for the second cold key. -/
def secondDraws : GenerateDraws := ⟨smallSecret 8, 0, repeated 16 8⟩

/-- The wallet is ready for its second cold key. -/
theorem coldReady_keptWallet : ColdReady reference Order.held secondDraws keptWallet := by
  have hends : GenerateWithEnds reference .written Order.held firstDraws newWallet _ :=
    generateAddressWith_ends reference reference_json coldReady_newWallet.loggedIn
  have hfirst : Exec.result?
      (Wallet.generateAddressWith reference .written Order.held firstDraws) newWallet =
        some (some (generated 7)) := by decide +kernel
  have hsecond : ∀ k', Wallet.makeKey reference (smallSecret 8) 0 = .ok k' →
      coldAddress reference k' = generated 8 := by
    intro k' hk'
    cases hk'
    rfl
  unfold keptWallet leftBy Exec.finalState
  unfold Exec.result? at hfirst
  generalize Wallet.generateAddressWith reference .written Order.held firstDraws newWallet = r
    at hends hfirst
  cases hends with
  | noKey e hk => cases hfirst
  | threw e k hk hnone => cases hfirst
  | reached k key iv hk hkey =>
      have haddress : coldAddress reference k = generated 7 :=
        Option.some.inj (Option.some.inj hfirst)
      have hlook : ∀ uuid,
          (noted reference Order.held firstDraws k newWallet).address_lookup_.lookup uuid =
            if uuid = firstDraws.uuid then some (generated 7) else none := by
        intro uuid
        rw [(noted_lookup reference coldReady_newWallet.tables coldReady_newWallet.newUuid uuid).1,
          haddress, cold_newWallet.1]
        rfl
      refine coldReady_written reference reference_json coldReady_newWallet ?_ hk hkey ?_ ?_
      · intro uuid uuid' s hs
        rw [cold_newWallet.1] at hs
        cases hs
      · rw [← AList.lookup_eq_none, hlook, if_neg (by decide)]
      · intro k' hk' uuid hsame
        rw [hlook, hsecond k' hk'] at hsame
        split_ifs at hsame
        exact absurd (Option.some.inj hsame) (by decide)

/-- The second generation is durable and atomic where the write succeeds. -/
theorem durable_and_atomic_second :
    Durable reference .written Order.held secondDraws keptWallet ∧
      Atomic reference .written Order.held secondDraws keptWallet :=
  (durable_and_atomic_iff reference reference_json reference_torn coldReady_keptWallet).mpr
    fun _ _ _ _ _ => trivial

/-- An address is returned for a file that could not be opened. -/
theorem address_not_stored :
    ¬ (Durable reference .notOpened Order.held firstDraws newWallet ∧
      Atomic reference .notOpened Order.held firstDraws newWallet) := by
  rintro ⟨hdurable, -⟩
  obtain ⟨k, new, -, hdisk, -⟩ := hdurable (generated 7) (by decide +kernel)
  have hnone : coldOnDisk reference Order.held
      (leftBy reference .notOpened Order.held firstDraws newWallet) = none := by decide +kernel
  rw [hnone] at hdisk
  cases hdisk

end Reader

end TronWallet.Theorems
