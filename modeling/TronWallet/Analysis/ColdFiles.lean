import TronWallet.Analysis.ColdWallet

/-!
# What the cold tables and the cold files hold

Both tables of the cold wallet are keyed by the same identifiers, and an entry pairs an
address with a key.  `ColdMem Q` says that every pair held in memory satisfies `Q`, and
`ColdDisk Q` that every cold file is the encryption of a dictionary whose pairs satisfy
the condition `Q` has for its name.  Generating, writing and reading carry the one to the
other: the dictionary written holds the pairs in memory (`dictOk_coldDictionary`), and a
file that can be read gives back the dictionary it was made of (`dictOk_of_read`), which
is where it matters that a wrong key yields no JSON.
-/

set_option autoImplicit false

namespace TronWallet.Analysis

open TronWallet.Lib TronWallet.Model

variable (P : Platform)

/-! ## Characters -/

/-- The address of a key pair consists of letters and digits. -/
theorem alphanumeric_coldAddress (k : KeyPair) : ∀ c ∈ coldAddress P k, Alphanumeric c := by
  intro c hc
  have hall : pszBase58.all (fun c => decide (Alphanumeric c)) = true := by decide
  exact of_decide_eq_true (List.all_eq_true.mp hall c (mem_encodeBase58 hc))

/-- Hexadecimal text consists of letters and digits. -/
theorem alphanumeric_toHex (b : Bytes) : ∀ c ∈ toHex b, Alphanumeric c := by
  intro c hc
  have hall : hexdigits.all (fun c => decide (Alphanumeric c)) = true := by decide
  exact of_decide_eq_true (List.all_eq_true.mp hall c (mem_hexdigits_of_mem_toHex hc))

/-- A text of letters and digits has no dot. -/
theorem dot_notMem_of_alphanumeric {s : Bytes} (h : ∀ c ∈ s, Alphanumeric c) :
    Dictionary.dot ∉ s := fun hmem => absurd (h _ hmem) (by decide)

/-! ## The dictionary written -/

/-- The text of a JSON string. -/
def stringOf : Value → Option Bytes
  | .string v => some v
  | _ => none

/-- A dictionary of addresses with the hexadecimal text of their keys, each pair satisfying
`Q`. -/
structure DictOk (Q : Bytes → Bytes → Prop) (d : Dictionary) : Prop where
  sorted : d.Sorted
  entries : ∀ e ∈ d, (∀ c ∈ e.1, Alphanumeric c) ∧ ∃ b, e.2 = .string (toHex b) ∧ Q e.1 b

/-- The dictionary of a cold file has letters and digits only. -/
theorem DictOk.plain {Q : Bytes → Bytes → Prop} {d : Dictionary} (h : DictOk Q d) : Plain d := by
  intro e he
  obtain ⟨hkey, b, hv, -⟩ := h.entries e he
  exact ⟨hkey, toHex b, hv, alphanumeric_toHex b⟩

/-- Every pair in memory satisfies `Q`, and both tables have the same identifiers. -/
structure ColdMem (Q : Bytes → Bytes → Prop) (w : Wallet) : Prop where
  sameKeys : ∀ uuid, uuid ∈ w.address_lookup_ ↔ uuid ∈ w.cached_
  entries : ∀ uuid s b, w.address_lookup_.lookup uuid = some s → w.cached_.lookup uuid = some b →
    (∀ c ∈ s, Alphanumeric c) ∧ Q s b

/-- What holds of the pairs in memory may be weakened. -/
theorem ColdMem.mono {Q Q' : Bytes → Bytes → Prop} {w : Wallet} (h : ColdMem Q w)
    (hQ : ∀ uuid s b, w.address_lookup_.lookup uuid = some s → w.cached_.lookup uuid = some b →
      Q s b → Q' s b) : ColdMem Q' w :=
  ⟨h.sameKeys, fun uuid s b hs hb =>
    ⟨(h.entries uuid s b hs hb).1, hQ uuid s b hs hb (h.entries uuid s b hs hb).2⟩⟩

/-- One round of the loop that builds the dictionary. -/
def dictionaryStep (lookup : UnorderedMap H128 Bytes) (root : Dictionary) (p : H128 × Bytes) :
    Dictionary :=
  match lookup.lookup p.1 with
  | some address => Dictionary.setString address (toHex p.2) root
  | none => root

/-- The dictionary of a wallet as a fold over its keys. -/
theorem coldDictionary_eq (o : Order) (w : Wallet) :
    w.coldDictionary o = (o.iterate w.cached_).foldl (dictionaryStep w.address_lookup_) [] := rfl

section Dictionary

variable {Q : Bytes → Bytes → Prop} {lookup : UnorderedMap H128 Bytes}

/-- A round keeps the dictionary in order and adds a pair of the tables. -/
theorem dictOk_step {root : Dictionary} {p : H128 × Bytes} (hroot : DictOk Q root)
    (hp : ∀ s, lookup.lookup p.1 = some s → (∀ c ∈ s, Alphanumeric c) ∧ Q s p.2) :
    DictOk Q (dictionaryStep lookup root p) := by
  unfold dictionaryStep
  cases hs : lookup.lookup p.1 with
  | none => exact hroot
  | some s =>
      obtain ⟨halpha, hQ⟩ := hp s hs
      simp only
      rw [Dictionary.setString_of_no_dot (dot_notMem_of_alphanumeric halpha)]
      refine ⟨Dictionary.sorted_setWithoutPathExpansion hroot.sorted, fun e he => ?_⟩
      rcases Dictionary.mem_setWithoutPathExpansion he with rfl | he
      · exact ⟨halpha, p.2, rfl, hQ⟩
      · exact hroot.entries e he

/-- All rounds together. -/
theorem dictOk_foldl {l : List (H128 × Bytes)} {root : Dictionary} (hroot : DictOk Q root)
    (hl : ∀ p ∈ l, ∀ s, lookup.lookup p.1 = some s → (∀ c ∈ s, Alphanumeric c) ∧ Q s p.2) :
    DictOk Q (l.foldl (dictionaryStep lookup) root) := by
  induction l generalizing root with
  | nil => exact hroot
  | cons p l ih =>
      exact ih (dictOk_step hroot (hl p List.mem_cons_self))
        (fun q hq => hl q (List.mem_cons_of_mem _ hq))

/-- The dictionary holds each address of an entry, with the key of an entry with that
address: the last one visited. -/
theorem find_foldl {l : List (H128 × Bytes)} {s : Bytes}
    (hl : ∀ p ∈ l, ∀ s, lookup.lookup p.1 = some s → ∀ c ∈ s, Alphanumeric c)
    (hs : ∃ p ∈ l, lookup.lookup p.1 = some s) :
    ∃ p ∈ l, lookup.lookup p.1 = some s ∧
      (l.foldl (dictionaryStep lookup) []).find s = some (.string (toHex p.2)) := by
  induction l using List.reverseRecOn with
  | nil =>
      obtain ⟨p, hp, -⟩ := hs
      cases hp
  | append_singleton l p ih =>
      rw [List.foldl_append, List.foldl_cons, List.foldl_nil]
      by_cases hp : lookup.lookup p.1 = some s
      · refine ⟨p, by simp, hp, ?_⟩
        unfold dictionaryStep
        rw [hp]
        simp only
        rw [Dictionary.setString_of_no_dot (dot_notMem_of_alphanumeric (hl p (by simp) s hp)),
          Dictionary.find_setWithoutPathExpansion, if_pos rfl]
      · obtain ⟨q, hq, hqs⟩ := hs
        rcases List.mem_append.mp hq with hq | hq
        · obtain ⟨r, hr, hrs, hfind⟩ := ih (fun q hq => hl q (by simp [hq])) ⟨q, hq, hqs⟩
          refine ⟨r, by simp [hr], hrs, ?_⟩
          rw [← hfind]
          unfold dictionaryStep
          cases ht : lookup.lookup p.1 with
          | none => rfl
          | some t =>
              simp only
              rw [Dictionary.setString_of_no_dot (dot_notMem_of_alphanumeric
                (hl p (by simp) t ht)), Dictionary.find_setWithoutPathExpansion, if_neg]
              rintro rfl
              exact hp ht
        · rw [List.mem_singleton.mp hq] at hqs
          exact (hp hqs).elim

end Dictionary

/-- The dictionary of a wallet holds pairs of its tables. -/
theorem dictOk_coldDictionary {Q : Bytes → Bytes → Prop} {w : Wallet} (h : ColdMem Q w)
    (o : Order) : DictOk Q (w.coldDictionary o) := by
  rw [coldDictionary_eq]
  refine dictOk_foldl ⟨List.Pairwise.nil, fun e he => by cases he⟩ fun p hp s hs => ?_
  exact h.entries p.1 s p.2 hs ((Order.mem_iterate o).mp hp)

/-- The dictionary of a wallet holds each address in memory, with a key in memory under
that address. -/
theorem find_coldDictionary {Q : Bytes → Bytes → Prop} {w : Wallet} (h : ColdMem Q w)
    (o : Order) {uuid : H128} {s b : Bytes} (hs : w.address_lookup_.lookup uuid = some s)
    (hb : w.cached_.lookup uuid = some b) :
    ∃ uuid' b', w.address_lookup_.lookup uuid' = some s ∧ w.cached_.lookup uuid' = some b' ∧
      (w.coldDictionary o).find s = some (.string (toHex b')) := by
  rw [coldDictionary_eq]
  have hl : ∀ p ∈ o.iterate w.cached_, ∀ s, w.address_lookup_.lookup p.1 = some s →
      ∀ c ∈ s, Alphanumeric c := fun p hp s hs =>
    (h.entries p.1 s p.2 hs ((Order.mem_iterate o).mp hp)).1
  have hmem : (uuid, b) ∈ o.iterate w.cached_ := (Order.mem_iterate o).mpr hb
  obtain ⟨p, hp, hps, hfound⟩ := find_foldl hl ⟨_, hmem, hs⟩
  exact ⟨p.1, p.2, hps, (Order.mem_iterate o).mp hp, hfound⟩

/-! ## Memory -/

/-- Noting a pair under one identifier in both tables: a pair that is there already under
that identifier is kept whole. -/
theorem coldMem_emplace {Q : Bytes → Bytes → Prop} {w w' : Wallet} {uuid : H128} {s b : Bytes}
    (h : ColdMem Q w) (hs : ∀ c ∈ s, Alphanumeric c) (hQ : Q s b)
    (hlookup : w'.address_lookup_ = UnorderedMap.emplace w.address_lookup_ uuid s)
    (hcached : w'.cached_ = UnorderedMap.emplace w.cached_ uuid b) : ColdMem Q w' := by
  by_cases hmem : uuid ∈ w.address_lookup_
  · have hmem' := (h.sameKeys uuid).mp hmem
    rw [UnorderedMap.emplace, if_pos hmem] at hlookup
    rw [UnorderedMap.emplace, if_pos hmem'] at hcached
    exact ⟨by rw [hlookup, hcached]; exact h.sameKeys, by rw [hlookup, hcached]; exact h.entries⟩
  · have hmem' := fun hc => hmem ((h.sameKeys uuid).mpr hc)
    rw [UnorderedMap.emplace, if_neg hmem] at hlookup
    rw [UnorderedMap.emplace, if_neg hmem'] at hcached
    refine ⟨fun u => ?_, fun u s' b' hs' hb' => ?_⟩
    · rw [hlookup, hcached, AList.mem_insert, AList.mem_insert, h.sameKeys u]
    · rw [hlookup, UnorderedMap.lookup_insert_eq] at hs'
      rw [hcached, UnorderedMap.lookup_insert_eq] at hb'
      by_cases hu : u = uuid
      · rw [if_pos hu] at hs' hb'
        cases hs'
        cases hb'
        exact ⟨hs, hQ⟩
      · rw [if_neg hu] at hs' hb'
        exact h.entries u s' b' hs' hb'

/-- Generating an address notes a pair of an address and its key. -/
theorem coldMem_noted {Q : Bytes → Bytes → Prop} {o : Order} {d : GenerateDraws} {k : KeyPair}
    {w : Wallet} (h : ColdMem Q w) (hQ : Q (coldAddress P k) k.m_secret.m_data) :
    ColdMem Q (noted P o d k w) :=
  coldMem_emplace h (alphanumeric_coldAddress P k) hQ rfl rfl

/-- Noting what a dictionary holds. -/
theorem coldMem_noteAllLoaded {Q : Bytes → Bytes → Prop} {uuids : ℕ → H128} {root : Dictionary}
    (hroot : ∀ e ∈ root, (∀ c ∈ e.1, Alphanumeric c) ∧ ∃ b, e.2 = .string (toHex b) ∧ Q e.1 b)
    {i : ℕ} {w : Wallet} (h : ColdMem Q w) : ColdMem Q (Wallet.noteAllLoaded uuids i root w) := by
  induction root generalizing i w with
  | nil => exact h
  | cons e root ih =>
      obtain ⟨s, v⟩ := e
      obtain ⟨hs, b, hv, hQ⟩ := hroot (s, v) List.mem_cons_self
      refine ih (fun e he => hroot e (List.mem_cons_of_mem _ he)) ?_
      simp only at hv hs hQ
      subst hv
      unfold Wallet.noteLoaded
      simp only [fromHex_toHex]
      split
      · exact h
      · exact coldMem_emplace h hs hQ rfl rfl

/-- A lookup that finds a key found an entry of both tables. -/
theorem exists_entry_of_lookupPrivate {o : Order} {w : Wallet} {s : Bytes}
    (h : Wallet.lookupPrivate o w s ≠ 0) : ∃ uuid b, w.address_lookup_.lookup uuid = some s ∧
      w.cached_.lookup uuid = some b ∧ Wallet.lookupPrivate o w s = FixedHash.ofBytes b := by
  unfold Wallet.lookupPrivate at h ⊢
  cases hfind : (o.iterate w.address_lookup_).find? fun p => p.2 = s with
  | none =>
      rw [hfind] at h
      exact (h rfl).elim
  | some p =>
      rw [hfind] at h
      obtain ⟨uuid, s'⟩ := p
      have hmem := List.mem_of_find?_eq_some hfind
      have hs : s' = s := by simpa using List.find?_some hfind
      subst hs
      simp only at h ⊢
      cases hb : w.cached_.lookup uuid with
      | none =>
          rw [hb] at h
          exact (h rfl).elim
      | some b => exact ⟨uuid, b, (Order.mem_iterate o).mp hmem, hb, rfl⟩

/-! ## Files -/

/-- Every cold file is the encryption, on record, of a dictionary whose pairs satisfy the
condition for its name. -/
def ColdDisk (Q : Bytes → Bytes → Bytes → Prop) (host : Host) : Prop :=
  ∀ name data, host.coldWallet.lookup name = some data → ∃ key iv d, DictOk (Q name) d ∧
    ⟨.coldFile, key, iv, P.jsonWrite (.dictionary d)⟩ ∈ host.ctrCalls ∧
      data = P.encryptSymNoAuth key iv (P.jsonWrite (.dictionary d))

/-- The file the wallet would read is unreadable under any key but that of an encryption
that made it. -/
def ReadsOwnText (o : Order) (w : Wallet) : Prop :=
  ∀ m data key iv, w.m_keyManager = some m →
    w.host.coldWallet.lookup (toHex w.Address) = some data →
    coldKey P o m (toAddress w.Address) = .ok (some (key, iv)) →
    ∀ c ∈ w.host.ctrCalls, c.site = .coldFile → data = P.encryptSymNoAuth c.key c.iv c.plain →
      (c.key = key ∧ c.iv = iv) ∨ P.jsonRead (P.decryptSymNoAuth key iv data) = none

instance (o : Order) (w : Wallet) : Decidable (ReadsOwnText P o w) :=
  match hm : w.m_keyManager, hdata : w.host.coldWallet.lookup (toHex w.Address) with
  | none, _ => .isTrue fun m _ _ _ h => by rw [hm] at h; cases h
  | some _, none => .isTrue fun _ data _ _ _ h => by rw [hdata] at h; cases h
  | some m, some data =>
    match hkey : coldKey P o m (toAddress w.Address) with
    | .error _ => .isTrue fun m' data' key iv hm' _ hkey' => by
        rw [hm] at hm'
        cases hm'
        rw [hkey] at hkey'
        cases hkey'
    | .ok none => .isTrue fun m' data' key iv hm' _ hkey' => by
        rw [hm] at hm'
        cases hm'
        rw [hkey] at hkey'
        cases hkey'
    | .ok (some (key, iv)) =>
      decidable_of_iff (∀ c ∈ w.host.ctrCalls, c.site = .coldFile →
          data = P.encryptSymNoAuth c.key c.iv c.plain →
          (c.key = key ∧ c.iv = iv) ∨ (P.jsonRead (P.decryptSymNoAuth key iv data)).isNone = true)
        ⟨fun h m' data' key' iv' hm' hdata' hkey' c hc hsite heq => by
          rw [hm] at hm'
          cases hm'
          rw [hdata] at hdata'
          cases hdata'
          rw [hkey] at hkey'
          cases hkey'
          exact (h c hc hsite heq).imp id Option.isNone_iff_eq_none.mp,
        fun h c hc hsite heq => (h m data key iv hm hdata hkey c hc hsite heq).imp id
          Option.isNone_iff_eq_none.mpr⟩

/-- The condition of a step on the file it reads. -/
def ReadsStep (w : Wallet) : Action → Prop
  | .loadAddresses o _ => ReadsOwnText P o w
  | .getAddresses o _ => ReadsOwnText P o w
  | _ => True

instance (w : Wallet) (a : Action) : Decidable (ReadsStep P w a) :=
  match a with
  | .restart | .createAccount .. | .login .. | .logout .. | .generateAddress ..
  | .loadAddresses .. | .getAddresses .. => by unfold ReadsStep; infer_instance

/-- **A wrong key yields no JSON**: at each step that reads a cold file. -/
def WrongKeyUnreadable (as : List Action) : Prop :=
  EveryStep (Wallet.step P) {} (fun _ w a => ReadsStep P w a) as

/-- A file that can be read gives back the dictionary it was made of. -/
theorem dictOk_of_read (hjson : JsonLaws P) {Q : Bytes → Bytes → Bytes → Prop} {o : Order}
    {w : Wallet} {m : KeyManager} {data : Bytes} {key iv : H128} {root : Dictionary}
    (hdisk : ColdDisk P Q w.host) (hown : ReadsOwnText P o w) (hm : w.m_keyManager = some m)
    (hdata : w.host.coldWallet.lookup (toHex w.Address) = some data)
    (hkey : coldKey P o m (toAddress w.Address) = .ok (some (key, iv)))
    (hroot : P.jsonRead (P.decryptSymNoAuth key iv data) = some (.dictionary root)) :
    DictOk (Q (toHex w.Address)) root := by
  obtain ⟨key', iv', d, hd, hcall, hdata'⟩ := hdisk _ data hdata
  rcases hown m data key iv hm hdata hkey _ hcall rfl hdata' with ⟨hk, hiv⟩ | hnone
  · simp only at hk hiv
    subst hk
    subst hiv
    rw [hdata', Platform.decryptSymNoAuth_encryptSymNoAuth, hjson.read_write d hd.sorted hd.plain]
      at hroot
    cases hroot
    exact hd
  · rw [hnone] at hroot
    cases hroot

/-- Files and records that only grow keep the law of the files. -/
theorem coldDisk_of_sameCold {Q : Bytes → Bytes → Bytes → Prop} {w w' : Wallet}
    (h : ColdDisk P Q w.host) (hsame : SameCold w w') : ColdDisk P Q w'.host := by
  intro name data hdata
  rw [hsame.files] at hdata
  obtain ⟨key, iv, d, hd, hcall, hdata'⟩ := h name data hdata
  exact ⟨key, iv, d, hd, (hsame.calls _ rfl).mpr hcall, hdata'⟩

/-- What holds of the pairs on disk may be weakened. -/
theorem coldDisk_mono {Q Q' : Bytes → Bytes → Bytes → Prop} {host : Host} (h : ColdDisk P Q host)
    (hQ : ∀ name s b, Q name s b → Q' name s b) : ColdDisk P Q' host := by
  intro name data hdata
  obtain ⟨key, iv, d, hd, hcall, hdata'⟩ := h name data hdata
  exact ⟨key, iv, d, ⟨hd.sorted, fun e he =>
    ⟨(hd.entries e he).1, (hd.entries e he).2.imp fun b hb => ⟨hb.1, hQ _ _ _ hb.2⟩⟩⟩, hcall,
    hdata'⟩

/-- Writing the file of the account logged in. -/
theorem coldDisk_wroteCold {Q : Bytes → Bytes → Bytes → Prop} {o : Order} {key iv : H128}
    {w : Wallet} (h : ColdDisk P Q w.host)
    (hmem : w.Address ≠ [] → ColdMem (Q (toHex w.Address)) w) :
    ColdDisk P Q (wroteCold P o key iv w).host := by
  have hold : ∀ (name data : Bytes), w.host.coldWallet.lookup name = some data →
      ∃ key' iv' d, DictOk (Q name) d ∧
        ⟨.coldFile, key', iv', P.jsonWrite (.dictionary d)⟩ ∈
          coldCall P o w key iv :: w.host.ctrCalls ∧
        data = P.encryptSymNoAuth key' iv' (P.jsonWrite (.dictionary d)) := by
    intro name data hdata
    obtain ⟨key', iv', d, hd, hcall, hdata'⟩ := h name data hdata
    exact ⟨key', iv', d, hd, List.mem_cons_of_mem _ hcall, hdata'⟩
  intro name data hdata
  unfold wroteCold at hdata ⊢
  by_cases hname : toHex w.Address = []
  · rw [if_pos hname] at hdata ⊢
    exact hold name data hdata
  · rw [if_neg hname] at hdata ⊢
    have haddr : w.Address ≠ [] := by
      intro hnil
      rw [hnil] at hname
      exact hname rfl
    simp only [Host.noteCtrCall, UnorderedMap.lookup_insert_eq] at hdata
    by_cases heq : name = toHex w.Address
    · rw [if_pos heq] at hdata
      cases hdata
      subst heq
      exact ⟨key, iv, w.coldDictionary o, dictOk_coldDictionary (hmem haddr) o,
        List.mem_cons_self, rfl⟩
    · rw [if_neg heq] at hdata
      exact hold name data hdata

/-! ## Every run -/

/-- One step, for a condition that every generated pair satisfies. -/
theorem cold_step (hjson : JsonLaws P) {Q : Bytes → Bytes → Prop}
    (hQ : ∀ seed rounds k, Wallet.makeKey P seed rounds = .ok k →
      Q (coldAddress P k) k.m_secret.m_data) {w : Wallet} {a : Action}
    (hmem : ColdMem Q w) (hdisk : ColdDisk P (fun _ => Q) w.host)
    (hown : ∀ o uuids, a = .loadAddresses o uuids ∨ a = .getAddresses o uuids →
      ReadsOwnText P o w) :
    ColdMem Q (Wallet.step P w a) ∧ ColdDisk P (fun _ => Q) (Wallet.step P w a).host := by
  have hsame : ∀ w', SameCold w w' → ColdMem Q w' ∧ ColdDisk P (fun _ => Q) w'.host := by
    intro w' h
    refine ⟨⟨?_, ?_⟩, coldDisk_of_sameCold P hdisk h⟩
    · rw [h.lookup, h.cached]
      exact hmem.sameKeys
    · rw [h.lookup, h.cached]
      exact hmem.entries
  have hload : ∀ o uuids w', ReadsOwnText P o w → LoadEnds P o uuids w w' →
      ColdMem Q w' ∧ ColdDisk P (fun _ => Q) w'.host := by
    intro o uuids w' hreads hends
    rcases hends with ⟨rfl⟩ | ⟨m, data, key, iv, root, hempty, hm, hdata, hkey, hroot, rfl⟩
    · exact ⟨hmem, hdisk⟩
    · have hd := dictOk_of_read P hjson hdisk hreads hm hdata hkey hroot
      refine ⟨coldMem_noteAllLoaded hd.entries hmem, ?_⟩
      rw [(noteAllLoaded_frame uuids 0 root w).2.2]
      exact hdisk
  cases a with
  | restart => exact ⟨⟨fun _ => Iff.rfl, fun uuid s b hs => by cases hs⟩, hdisk⟩
  | createAccount o name password d => exact hsame _ (sameCold_createAccount P o name password d w)
  | login o password => exact hsame _ (sameCold_login P o password w)
  | logout o => exact hsame _ (sameCold_logout P o w)
  | generateAddress o d =>
      rcases generateAddress_leaves P hjson o d w with ⟨e, hk, hw⟩ | ⟨k, hk, hw⟩ |
        ⟨k, key, iv, hk, hkey, hw⟩
      · rw [hw]
        exact ⟨⟨hmem.sameKeys, hmem.entries⟩, hdisk⟩
      · rw [hw]
        exact ⟨coldMem_noted P hmem (hQ _ _ k hk), hdisk⟩
      · rw [hw]
        have hnoted := coldMem_noted P (o := o) (d := d) hmem (hQ _ _ k hk)
        refine ⟨?_, coldDisk_wroteCold P hdisk fun _ => hnoted⟩
        unfold wroteCold
        split <;> exact ⟨hnoted.sameKeys, hnoted.entries⟩
  | loadAddresses o uuids =>
      exact hload o uuids _ (hown o uuids (Or.inl rfl)) (loadAddresses_ends P hjson o uuids w)
  | getAddresses o uuids =>
      exact hload o uuids _ (hown o uuids (Or.inr rfl)) (getAddresses_ends P hjson o uuids w).1

/-- What a step condition of reading says about the step. -/
theorem readsOwnText_of_step {w : Wallet} {a : Action} (h : ReadsStep P w a) (o : Order)
    (uuids : ℕ → H128)
    (ha : a = .loadAddresses o uuids ∨ a = .getAddresses o uuids) : ReadsOwnText P o w := by
  rcases ha with rfl | rfl <;> exact h

/-- **Every run**: a condition that every generated pair satisfies holds of every pair in
memory and on disk. -/
theorem cold_run (hjson : JsonLaws P) {Q : Bytes → Bytes → Prop}
    (hQ : ∀ seed rounds k, Wallet.makeKey P seed rounds = .ok k →
      Q (coldAddress P k) k.m_secret.m_data) {as : List Action} (h : WrongKeyUnreadable P as) :
    ColdMem Q (Wallet.run P as) ∧ ColdDisk P (fun _ => Q) (Wallet.run P as).host := by
  refine EveryStep.invariant (I := fun _ w => ColdMem Q w ∧ ColdDisk P (fun _ => Q) w.host)
    ⟨⟨fun _ => Iff.rfl, fun uuid s b hs => by cases hs⟩, fun name data hdata => by cases hdata⟩
    (fun done a hI hG => cold_step P hjson hQ hI.1 hI.2 (readsOwnText_of_step P hG)) h

end TronWallet.Analysis
