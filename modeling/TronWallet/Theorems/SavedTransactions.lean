import TronWallet.Model.TransactionManager
import TronWallet.Analysis.Base58
import TronWallet.Reference.Formats

/-!
# Saved transactions and votes

A file is named after the first seven characters of the hexadecimal text of the serialized
transaction.  Those are three and a half bytes, the tags and lengths a message begins with,
and every transaction of the same length has the same ones.  A later call with the same
seven characters replaces the file of the earlier one.

Each call by itself is sound: what it wrote under its path is loaded back
(`loaded_of_lookup`).  After a sequence of calls everything is loaded back if and only if no
two of them share these characters (`saves_kept_iff`).
-/

set_option autoImplicit false

namespace TronWallet.Theorems

open TronWallet.Lib TronWallet.Model TronWallet.Analysis TronWallet.Reference

variable (F : FileFormats)

/-! ## Calls -/

/-- A call that saves. -/
inductive SaveCall where
  | transaction (t : Transaction)
  | vote (t : Transaction) (address_url : StringMap)

namespace SaveCall

/-- The transaction a call saves. -/
def saved : SaveCall → Transaction
  | .transaction t => t
  | .vote t _ => t

/-- The text a call keeps under `hex`. -/
def hex (c : SaveCall) : Bytes := toHex (F.serializeAsString c.saved)

/-- The dictionary a call writes. -/
def details : SaveCall → Dictionary
  | .transaction t => transactionDetails F t
  | .vote t address_url => voteDetails F t address_url

/-- Makes a call. -/
def run (disk : Disk) (dir : Bytes) (files : Files) : SaveCall → Option (Bool × Files)
  | .transaction t => saveTransaction F disk dir t files
  | .vote t address_url => saveVote F disk dir ⟨some t, address_url⟩ files

/-- The path a call used loads what it saved. -/
def Loaded (dir : Bytes) (files : Files) (c : SaveCall) : Prop :=
  match c with
  | .transaction t => loadTransaction F files (savePath dir (c.hex F)) = some t
  | .vote t address_url => loadVote F files (savePath dir (c.hex F)) = some ⟨some t, address_url⟩

/-- The votes of a call are for base58 addresses. -/
def Base58Keys : SaveCall → Prop
  | .transaction _ => True
  | .vote _ address_url => ∀ p ∈ address_url.entries, ∀ c ∈ p.1, Base58Char c

/-- The libraries read back what a call writes. -/
structure ReadsBack (c : SaveCall) : Prop where
  parse_serialize : F.parseFromArray (F.serializeAsString c.saved) = some c.saved
  read_write : F.jsonRead (F.jsonWrite (.dictionary (c.details F))) =
    some (.dictionary (c.details F))

/-- A successful call writes its dictionary under its path. -/
theorem run_success {disk : Disk} {dir : Bytes} {files files' : Files} {c : SaveCall}
    (h : c.run F disk dir files = some (true, files')) :
    files' = files.insert (savePath dir (c.hex F)) (F.jsonWrite (.dictionary (c.details F))) := by
  have hfile : ∀ path d, serializeFile F disk path d files = (true, files') →
      files' = files.insert path (F.jsonWrite (.dictionary d)) := by
    intro path d hd
    unfold serializeFile at hd
    by_cases hopen : disk.opensFile
    · rw [if_pos hopen] at hd
      exact (Prod.mk.inj hd).2.symm
    · rw [if_neg hopen] at hd
      cases hd
  cases c with
  | transaction t =>
      change saveTransaction F disk dir t files = _ at h
      unfold saveTransaction at h
      by_cases hdir : disk.makesDirectories
      · rw [if_pos hdir] at h
        exact hfile _ _ (Option.some.inj h)
      · rw [if_neg hdir] at h
        cases h
  | vote t address_url =>
      change saveVote F disk dir ⟨some t, address_url⟩ files = _ at h
      unfold saveVote at h
      by_cases hdir : disk.makesDirectories
      · rw [if_pos hdir] at h
        exact hfile _ _ (Option.some.inj h)
      · rw [if_neg hdir] at h
        cases h

end SaveCall

/-- The files after a sequence of calls into one directory, if each of them succeeds. -/
def saveAll (dir : Bytes) : List (Disk × SaveCall) → Files → Option Files
  | [], files => some files
  | (disk, c) :: rest, files =>
    match c.run F disk dir files with
    | some (true, files') => saveAll dir rest files'
    | _ => none

/-! ## The names of a vote -/

/-- A base58 character is not the dot that separates the keys of a path. -/
theorem dot_notMem_of_base58 {s : Bytes} (h : ∀ c ∈ s, Base58Char c) : Dictionary.dot ∉ s :=
  fun hdot => absurd (h _ hdot) (by unfold Base58Char; decide)

/-- Setting strings under ever greater keys appends them. -/
theorem foldl_setString (l : List (Bytes × Bytes)) (d : Dictionary)
    (hdot : ∀ p ∈ l, Dictionary.dot ∉ p.1)
    (hsorted : (d.map Prod.fst ++ l.map Prod.fst).Pairwise (· < ·)) :
    l.foldl (fun map p => Dictionary.setString p.1 p.2 map) d =
      d ++ l.map fun p => (p.1, Value.string p.2) := by
  induction l generalizing d with
  | nil => rw [List.foldl_nil, List.map_nil, List.append_nil]
  | cons p l ih =>
      have habove : ∀ k ∈ d.map Prod.fst, k < p.1 := fun k hk =>
        (List.pairwise_append.mp hsorted).2.2 k hk p.1 List.mem_cons_self
      rw [List.foldl_cons, Dictionary.setString_of_no_dot (hdot p List.mem_cons_self),
        Dictionary.setWithoutPathExpansion_of_lt _ habove,
        ih _ fun q hq => hdot q (List.mem_cons_of_mem _ hq)]
      · rw [List.append_assoc, List.map_cons, List.singleton_append]
      · simpa using hsorted

/-- The dictionary of the names holds them as they are. -/
theorem addressUrlDictionary_eq {address_url : StringMap}
    (h : ∀ p ∈ address_url.entries, Dictionary.dot ∉ p.1) :
    addressUrlDictionary address_url =
      address_url.entries.map fun p => (p.1, Value.string p.2) :=
  foldl_setString address_url.entries [] h address_url.sorted

/-- The names read from their dictionary are the names. -/
theorem addressUrl_addressUrlDictionary {address_url : StringMap}
    (h : ∀ p ∈ address_url.entries, Dictionary.dot ∉ p.1) :
    addressUrl (addressUrlDictionary address_url) = address_url := by
  rw [addressUrlDictionary_eq h]
  unfold addressUrl
  rw [List.foldl_map]
  exact SortedMap.foldl_emplace_entries address_url

/-! ## One file -/

/-- The key is no path: it has no dot. -/
theorem dot_notMem_hexKey : Dictionary.dot ∉ hexKey := by decide

/-- The dictionary of a transaction has one entry. -/
theorem transactionDetails_eq (t : Transaction) :
    transactionDetails F t = [(hexKey, .string (toHex (F.serializeAsString t)))] := by
  unfold transactionDetails
  rw [Dictionary.setString_of_no_dot dot_notMem_hexKey]
  rfl

/-- The dictionary of a vote has two entries. -/
theorem voteDetails_eq (t : Transaction) (address_url : StringMap) :
    voteDetails F t address_url = [(hexKey, .string (toHex (F.serializeAsString t))),
      (mapKey, .dictionary (addressUrlDictionary address_url))] := by
  unfold voteDetails
  rw [transactionDetails_eq, Dictionary.splitPath_of_no_dot (by decide)]
  rfl

/-- A call's file, once it is read, gives back what the call saved. -/
theorem SaveCall.loaded_of_lookup {dir : Bytes} {files : Files} {c : SaveCall}
    (hkeys : c.Base58Keys) (hback : c.ReadsBack F)
    (hfile : files.lookup (savePath dir (c.hex F)) =
      some (F.jsonWrite (.dictionary (c.details F)))) : c.Loaded F dir files := by
  have hroot : deserializeFile F files (savePath dir (c.hex F)) =
      some (.dictionary (c.details F)) := by
    unfold deserializeFile
    rw [hfile, Option.bind_some, hback.read_write]
  have hparse := hback.parse_serialize
  cases c with
  | transaction t =>
      show loadTransaction F files _ = some t
      unfold loadTransaction
      rw [hroot]
      show (Dictionary.getString (transactionDetails F t) hexKey).bind _ = _
      rw [transactionDetails_eq]
      show F.parseFromArray (fromHex (toHex (F.serializeAsString t))) = some t
      rw [fromHex_toHex]
      exact hparse
  | vote t address_url =>
      have hnames : addressUrl (addressUrlDictionary address_url) = address_url :=
        addressUrl_addressUrlDictionary fun p hp => dot_notMem_of_base58 (hkeys p hp)
      have hparse' : F.parseFromArray (fromHex (toHex (F.serializeAsString t))) = some t := by
        rw [fromHex_toHex]
        exact hparse
      have hhex : Dictionary.getString (voteDetails F t address_url) hexKey =
          some (toHex (F.serializeAsString t)) := by
        rw [voteDetails_eq]
        rfl
      have hmap : Dictionary.find (voteDetails F t address_url) mapKey =
          some (.dictionary (addressUrlDictionary address_url)) := by
        rw [voteDetails_eq]
        rfl
      show loadVote F files _ = some ⟨some t, address_url⟩
      unfold loadVote
      simp only [hroot, SaveCall.details, hhex, hparse', hmap, hnames]

/-- The transaction of a loaded vote is the one `LoadTransaction` finds in the file. -/
theorem loadTransaction_of_loadVote {files : Files} {path : Bytes} {t : Transaction}
    {address_url : StringMap} (h : loadVote F files path = some ⟨some t, address_url⟩) :
    loadTransaction F files path = some t := by
  unfold loadVote at h
  unfold loadTransaction
  cases hroot : deserializeFile F files path with
  | none => rw [hroot] at h; cases h
  | some v =>
      rw [hroot] at h
      cases v with
      | dictionary root =>
          simp only at h ⊢
          cases hhex : Dictionary.getString root hexKey with
          | none => rw [hhex] at h; cases h
          | some hex =>
              simp only [hhex, Option.bind_some] at h ⊢
              cases hparse : F.parseFromArray (fromHex hex) with
              | none => rw [hparse] at h; cases h
              | some t' =>
                  simp only [hparse] at h
                  cases hmap : Dictionary.find root mapKey with
                  | none => rw [hmap] at h; cases h; rfl
                  | some m =>
                      rw [hmap] at h
                      cases m <;> cases h
                      rfl
      | _ => cases h

/-- A path from which a call is loaded holds the call's transaction. -/
theorem SaveCall.Loaded.transaction {dir : Bytes} {files : Files} {c : SaveCall}
    (h : c.Loaded F dir files) :
    loadTransaction F files (savePath dir (c.hex F)) = some c.saved := by
  cases c with
  | transaction t => exact h
  | vote t address_url => exact loadTransaction_of_loadVote F h

/-! ## A sequence of calls -/

/-- The names of the files a sequence of calls writes. -/
def fileTexts (calls : List (Disk × SaveCall)) : List Bytes :=
  calls.map fun c => (c.2.hex F).take 7

/-- Two calls use one path only with the same first seven characters. -/
theorem savePath_inj {dir hex hex' : Bytes} :
    savePath dir hex = savePath dir hex' ↔ hex.take 7 = hex'.take 7 := by
  unfold savePath
  rw [List.append_left_inj, List.append_right_inj]

/-- A path none of the calls uses keeps its file. -/
theorem lookup_saveAll_of_ne {dir path : Bytes} {calls : List (Disk × SaveCall)}
    {files files' : Files} (h : saveAll F dir calls files = some files')
    (hpath : ∀ c ∈ calls, path ≠ savePath dir (c.2.hex F)) :
    files'.lookup path = files.lookup path := by
  induction calls generalizing files with
  | nil => cases h; rfl
  | cons c rest ih =>
      obtain ⟨disk, c⟩ := c
      unfold saveAll at h
      split at h
      · next files₁ hrun =>
          rw [ih h fun c' hc' => hpath c' (List.mem_cons_of_mem _ hc'),
            SaveCall.run_success F hrun, AList.lookup_insert_ne (hpath _ List.mem_cons_self)]
      · cases h

/-- When all paths differ, each call's dictionary is still under its path at the end. -/
theorem lookup_saveAll {dir : Bytes} {calls : List (Disk × SaveCall)} {files files' : Files}
    (h : saveAll F dir calls files = some files') (hnodup : (fileTexts F calls).Nodup) :
    ∀ c ∈ calls, files'.lookup (savePath dir (c.2.hex F)) =
      some (F.jsonWrite (.dictionary (c.2.details F))) := by
  induction calls generalizing files with
  | nil => exact fun c hc => absurd hc List.not_mem_nil
  | cons c rest ih =>
      obtain ⟨disk, c⟩ := c
      unfold fileTexts at hnodup
      rw [List.map_cons, List.nodup_cons] at hnodup
      unfold saveAll at h
      split at h
      · next files₁ hrun =>
          intro c' hc'
          rcases List.mem_cons.mp hc' with rfl | hc'
          · rw [lookup_saveAll_of_ne F h, SaveCall.run_success F hrun, AList.lookup_insert]
            intro c'' hc'' heq
            exact hnodup.1 (List.mem_map.mpr ⟨c'', hc'', (savePath_inj.mp heq).symm⟩)
          · exact ih h hnodup.2 c' hc'
      · cases h

/-- After a sequence of successful calls with pairwise different serialized transactions,
everything is loaded back if and only if the texts differ within seven characters. -/
theorem saves_kept_iff {dir : Bytes} {calls : List (Disk × SaveCall)} {files files' : Files}
    (hsaved : saveAll F dir calls files = some files')
    (hdistinct : (calls.map fun c => F.serializeAsString c.2.saved).Nodup)
    (hkeys : ∀ c ∈ calls, c.2.Base58Keys) (hback : ∀ c ∈ calls, c.2.ReadsBack F) :
    (∀ c ∈ calls, c.2.Loaded F dir files') ↔
      (calls.map fun c => (toHex (F.serializeAsString c.2.saved)).take 7).Nodup := by
  constructor
  · intro hloaded
    have hpairs := List.pairwise_map.mp hdistinct
    refine List.pairwise_map.mpr (hpairs.imp_of_mem ?_)
    -- two calls with one path would load one transaction
    intro c c' hc hc' hne htake
    have hpath : savePath dir (c.2.hex F) = savePath dir (c'.2.hex F) := savePath_inj.mpr htake
    have hload := (hloaded c hc).transaction F
    rw [hpath, (hloaded c' hc').transaction F] at hload
    exact hne (by rw [Option.some.inj hload])
  · intro hnodup c hc
    exact SaveCall.loaded_of_lookup F (hkeys c hc) (hback c hc)
      (lookup_saveAll F hsaved hnodup c hc)

/-! ## Runs -/

/-- A signed transfer with a given time. -/
def transferAt (timestamp : ℤ) : Transaction where
  raw_data :=
    { ref_block_bytes := [1, 2], expiration := 600, timestamp
      contract := [{ type := .TransferContract, parameter := ⟨[97, 98], [10, 1, 65]⟩ }] }
  signature := [[7, 7]]

/-- A signed vote. -/
def voteOnce : Transaction where
  raw_data :=
    { ref_block_bytes := [1, 2], timestamp := 9
      contract := [{ type := .VoteWitnessContract, parameter := ⟨[97, 98], [10, 1, 65]⟩ }] }
  signature := [[7, 7]]

/-- The names of two addresses, one of them with a quotation mark. -/
def namesOfTwo : StringMap := ⟨[([65], [119]), ([66], [34, 119])], by decide⟩

/-- A call with nothing in its way. -/
def calling (c : SaveCall) : Disk × SaveCall := (⟨true, true⟩, c)

/-- The formats read the transfers back. -/
theorem readsBack_transferAt (timestamp : ℤ) (h : timestamp = 5 ∨ timestamp = 6) :
    (SaveCall.transaction (transferAt timestamp)).ReadsBack formats := by
  rcases h with rfl | rfl
  · exact ⟨by decide, rfl⟩
  · exact ⟨by decide, rfl⟩

set_option maxRecDepth 4000 in
/-- The formats read the vote back. -/
theorem readsBack_voteOnce : (SaveCall.vote voteOnce namesOfTwo).ReadsBack formats :=
  ⟨by decide, rfl⟩

/-- What is to be shown of two calls. -/
theorem forall_calls {p : Disk × SaveCall → Prop} {c c' : Disk × SaveCall} (h : p c) (h' : p c') :
    ∀ x ∈ [c, c'], p x :=
  List.forall_mem_cons.mpr ⟨h, List.forall_mem_singleton.mpr h'⟩

/-- A transfer and a vote. -/
def transferAndVote : List (Disk × SaveCall) :=
  [calling (.transaction (transferAt 5)), calling (.vote voteOnce namesOfTwo)]

/-- The vote of the two calls is for base58 addresses. -/
theorem base58Keys_transferAndVote : ∀ c ∈ transferAndVote, c.2.Base58Keys := by
  refine forall_calls (p := fun c => c.2.Base58Keys) trivial ?_
  show ∀ p ∈ namesOfTwo.entries, ∀ c ∈ p.1, mapBase58.getD c.toNat (-1) ≠ -1
  decide +kernel

/-- A transfer and a vote in one directory are both loaded back. -/
theorem saves_kept_two :
    saveAll formats [67] transferAndVote ∅ =
        some ((saveAll formats [67] transferAndVote ∅).getD ∅) ∧
      ∀ c ∈ transferAndVote,
        c.2.Loaded formats [67] ((saveAll formats [67] transferAndVote ∅).getD ∅) := by
  have hsaved : saveAll formats [67] transferAndVote ∅ =
      some ((saveAll formats [67] transferAndVote ∅).getD ∅) := rfl
  refine ⟨hsaved, ?_⟩
  exact (saves_kept_iff formats hsaved (by decide) base58Keys_transferAndVote
    (forall_calls (readsBack_transferAt 5 (Or.inl rfl)) readsBack_voteOnce)).mpr (by decide)

/-- Two transfers that differ in their time alone. -/
def twoTransfers : List (Disk × SaveCall) :=
  [calling (.transaction (transferAt 5)), calling (.transaction (transferAt 6))]

/-- The two transfers are saved to one file, and the first of them is gone. -/
theorem save_overwritten :
    (∃ files, saveAll formats [67] twoTransfers ∅ = some files ∧
      ¬∀ c ∈ twoTransfers, c.2.Loaded formats [67] files) ∧
    (twoTransfers.map fun c => formats.serializeAsString c.2.saved).Nodup ∧
    (∀ c ∈ twoTransfers, c.2.Base58Keys) ∧ ∀ c ∈ twoTransfers, c.2.ReadsBack formats := by
  refine ⟨⟨_, rfl, fun h => ?_⟩, by decide,
    forall_calls (p := fun c => c.2.Base58Keys) trivial trivial,
    forall_calls (readsBack_transferAt 5 (Or.inl rfl)) (readsBack_transferAt 6 (Or.inr rfl))⟩
  have hfirst := h _ List.mem_cons_self
  have hlost : loadTransaction formats ((saveAll formats [67] twoTransfers ∅).getD ∅)
      (savePath [67] (toHex (writeTransaction (transferAt 5)))) ≠ some (transferAt 5) := by
    decide
  exact hlost hfirst

end TronWallet.Theorems
