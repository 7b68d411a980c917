import TronWallet.Theorems.ColdTexts
import TronWallet.Theorems.JsonFiles
import TronWallet.Theorems.SavedTransactions
import TronWallet.Theorems.VoteTable
import TronWallet.Theorems.WideTexts

/-!
# The names of a saved vote

A vote is saved with the names of the witnesses voted for.  The names come from the node,
over the cells of the list, and go through the wallet's own JSON writer and reader.

The writer takes every name, the reader does not: where one of them holds a noncharacter the
file is not read at all, and the transaction in it is lost (`loadVote_of_json`).  For a vote
made from the table this depends on the names of the witnesses voted for and on nothing else
(`loadVote_of_voteTable`).
-/

set_option autoImplicit false

namespace TronWallet.Theorems

open TronWallet.Lib TronWallet.Model TronWallet.Analysis TronWallet.Reference

/-! ## The names that are kept -/

/-- The names that are left of names that are saved. -/
def keptNames (names : StringMap) : StringMap := names.mapValues keptText

variable {F : FileFormats} {doubleToString : ℚ → Bytes} {stringToDouble : Bytes → Option ℚ}
variable {t : Transaction} {names : StringMap}

section Details

/-- The characters of Base58 are letters and digits. -/
theorem alphanumeric_of_base58Char {c : UInt8} (h : Base58Char c) : Alphanumeric c := by
  have hall : ∀ d < 58, Alphanumeric (charOf d) := by decide
  have hc := hall (digitOf c) h.spec.2.1
  rwa [h.spec.1] at hc

/-- The key of the transaction is read back as it was written. -/
theorem cleanText_hexKey : CleanText hexKey :=
  cleanText_of_all rfl

/-- The key of the names is read back as it was written. -/
theorem cleanText_mapKey : CleanText mapKey :=
  cleanText_of_all rfl

/-- The keys of a vote are in order. -/
theorem sorted_voteEntries (v v' : Value) : Dictionary.Sorted [(hexKey, v), (mapKey, v')] := by
  have hlt : hexKey < mapKey := by decide
  exact List.pairwise_cons.mpr
    ⟨List.forall_mem_singleton.mpr hlt, List.pairwise_singleton _ _⟩

/-- The names of a vote are in order. -/
theorem sorted_nameEntries (names : StringMap) :
    Dictionary.Sorted (names.entries.map fun e => (e.1, Value.string e.2)) := by
  unfold Dictionary.Sorted
  rw [List.map_map]
  exact names.sorted

/-- The dictionary of a vote, as a value. -/
theorem voteDetails_entries (hkeys : ∀ e ∈ names.entries, ∀ c ∈ e.1, Base58Char c) :
    voteDetails F t names = [(hexKey, .string (toHex (F.serializeAsString t))),
      (mapKey, .dictionary (names.entries.map fun e => (e.1, .string e.2)))] := by
  rw [voteDetails_eq, addressUrlDictionary_eq fun e he => dot_notMem_of_base58 (hkeys e he)]

/-- The dictionary of a vote is well formed as far as its texts and its names are. -/
theorem wellFormed_voteDetails {text : Bytes → Prop}
    (hkeys : ∀ e ∈ names.entries, ∀ c ∈ e.1, Base58Char c)
    (hclean : ∀ s, CleanText s → text s) :
    WellFormed text (fun _ => False) (kStackMaxDepth - 1) (.dictionary (voteDetails F t names)) ↔
      ∀ e ∈ names.entries, text e.2 := by
  have hkey : ∀ e ∈ names.entries, text e.1 := fun e he =>
    hclean _ (cleanText_of_alphanumeric fun c hc => alphanumeric_of_base58Char (hkeys e he c hc))
  rw [voteDetails_entries hkeys]
  constructor
  · intro h e he
    cases h with
    | dictionary _ _ entries =>
        have hmap := entries _ (List.mem_cons_of_mem _ List.mem_cons_self)
        cases hmap with
        | dictionary _ _ urls =>
            cases urls _ (List.mem_map_of_mem he) with
            | string characters => exact characters
  · intro h
    have hhex : text (toHex (F.serializeAsString t)) :=
      hclean _ (cleanText_of_alphanumeric (alphanumeric_toHex _))
    have hmap : WellFormed text (fun _ => False) (kStackMaxDepth - 2)
        (.dictionary (names.entries.map fun e => (e.1, .string e.2))) :=
      .dictionary (sorted_nameEntries names) (List.forall_mem_map.mpr hkey)
        (List.forall_mem_map.mpr fun e he => .string (h e he))
    exact .dictionary (sorted_voteEntries _ _)
      (List.forall_mem_cons.mpr ⟨hclean _ cleanText_hexKey,
        List.forall_mem_singleton.mpr (hclean _ cleanText_mapKey)⟩)
      (List.forall_mem_cons.mpr ⟨.string hhex, List.forall_mem_singleton.mpr hmap⟩)

/-- What is left of the dictionary of a vote is the dictionary of what is left of its
names. -/
theorem readBack_voteDetails (hkeys : ∀ e ∈ names.entries, ∀ c ∈ e.1, Base58Char c) :
    readBack (.dictionary (voteDetails F t names)) =
      .dictionary (voteDetails F t (keptNames names)) := by
  have hkept : ∀ e ∈ (keptNames names).entries, ∀ c ∈ e.1, Base58Char c := by
    unfold keptNames SortedMap.mapValues
    exact List.forall_mem_map.mpr hkeys
  have hkey : ∀ e ∈ names.entries, keptText e.1 = e.1 := fun e he => keptText_of_cleanText
    (cleanText_of_alphanumeric fun c hc => alphanumeric_of_base58Char (hkeys e he c hc))
  have hhex : keptText (toHex (F.serializeAsString t)) = toHex (F.serializeAsString t) :=
    keptText_of_cleanText (cleanText_of_alphanumeric (alphanumeric_toHex _))
  have hnames : readBackEntries (names.entries.map fun e => (e.1, .string e.2)) =
      (keptNames names).entries.map fun e => (e.1, .string e.2) := by
    rw [readBackEntries_eq_map, List.map_map, keptNames, SortedMap.mapValues, List.map_map]
    refine List.map_congr_left fun e he => ?_
    change (keptText e.1, readBack (.string e.2)) = _
    rw [hkey e he, readBack]
    rfl
  rw [voteDetails_entries hkeys, voteDetails_entries hkept, readBack, readBackEntries,
    readBackEntries, readBackEntries, readBack, readBack, hnames, hhex,
    dictionaryOf_sorted (sorted_nameEntries _), keptText_of_cleanText cleanText_hexKey,
    keptText_of_cleanText cleanText_mapKey, dictionaryOf_sorted (sorted_voteEntries _ _)]

end Details

/-! ## A saved vote -/

/-- A file with the dictionary of a vote is loaded as the vote. -/
theorem loadVote_of_root {files : Files} {path : Bytes}
    (hkeys : ∀ e ∈ names.entries, ∀ c ∈ e.1, Base58Char c)
    (hparse : F.parseFromArray (F.serializeAsString t) = some t)
    (hroot : deserializeFile F files path = some (.dictionary (voteDetails F t names))) :
    loadVote F files path = some ⟨some t, names⟩ := by
  have hnames : addressUrl (addressUrlDictionary names) = names :=
    addressUrl_addressUrlDictionary fun e he => dot_notMem_of_base58 (hkeys e he)
  have hhex : Dictionary.getString (voteDetails F t names) hexKey =
      some (toHex (F.serializeAsString t)) := by
    rw [voteDetails_eq]
    rfl
  have hmap : Dictionary.find (voteDetails F t names) mapKey =
      some (.dictionary (addressUrlDictionary names)) := by
    rw [voteDetails_eq]
    rfl
  have hback : F.parseFromArray (fromHex (toHex (F.serializeAsString t))) = some t := by
    rw [fromHex_toHex]
    exact hparse
  unfold loadVote
  simp only [hroot, hhex, hback, hmap, hnames]

/-- **What becomes of a saved vote.** It is loaded with what is left of its names when the
reader accepts each of them, and without its transaction when there is one it does not. -/
theorem loadVote_of_json {disk : Disk} {dir : Bytes} {files files' : Files}
    (hwrite : ∀ v, F.jsonWrite v = ((⟨false, true, doubleToString⟩ : JSONWriter).write v).2)
    (hread : ∀ text, F.jsonRead text = deserialize stringToDouble text)
    (hkeys : ∀ e ∈ names.entries, ∀ c ∈ e.1, Base58Char c)
    (hparse : F.parseFromArray (F.serializeAsString t) = some t)
    (hsave : saveVote F disk dir ⟨some t, names⟩ files = some (true, files')) :
    loadVote F files' (savePath dir (toHex (F.serializeAsString t))) =
      if ∀ e ∈ names.entries, WritableText e.2 then some ⟨some t, keptNames names⟩
      else some {} := by
  have hroot : deserializeFile F files' (savePath dir (toHex (F.serializeAsString t))) =
      deserialize stringToDouble ((⟨false, true, doubleToString⟩ : JSONWriter).write
        (.dictionary (voteDetails F t names))).2 := by
    have hrun : (SaveCall.vote t names).run F disk dir files = some (true, files') := hsave
    have hlookup : files'.lookup (savePath dir (toHex (F.serializeAsString t))) =
        some (F.jsonWrite (.dictionary (voteDetails F t names))) := by
      rw [SaveCall.run_success F hrun]
      exact AList.lookup_insert _
    unfold deserializeFile
    rw [hlookup, Option.bind_some, hread, hwrite]
  have hstorable : Storable (kStackMaxDepth - 1) (.dictionary (voteDetails F t names)) :=
    (wellFormed_voteDetails hkeys fun _ _ => trivial).mpr fun _ _ => trivial
  have hwritable : Writable (kStackMaxDepth - 1) (.dictionary (voteDetails F t names)) ↔
      ∀ e ∈ names.entries, WritableText e.2 :=
    wellFormed_voteDetails hkeys fun s hs => writableText_of_validText hs.1
  by_cases hall : ∀ e ∈ names.entries, WritableText e.2
  · have hback := (deserialize_write_iff ⟨false, true, doubleToString⟩ stringToDouble
      hstorable).mpr ⟨hwritable.mpr hall, rfl⟩
    have hkept : ∀ e ∈ (keptNames names).entries, ∀ c ∈ e.1, Base58Char c := by
      unfold keptNames SortedMap.mapValues
      exact List.forall_mem_map.mpr hkeys
    rw [if_pos hall]
    exact loadVote_of_root hkept hparse
      (by rw [hroot, hback, readBack_voteDetails hkeys])
  · have hnone : deserialize stringToDouble ((⟨false, true, doubleToString⟩ : JSONWriter).write
        (.dictionary (voteDetails F t names))).2 = none := by
      rw [Option.eq_none_iff_forall_ne_some]
      intro v hv
      exact hall (hwritable.mp ((deserialize_write_iff _ stringToDouble hstorable).mp hv).1)
    rw [if_neg hall]
    unfold loadVote
    rw [hroot, hnone]

/-! ## The names of the table -/

section Table

variable (P : Platform)

/-- The rows that become votes. -/
def heldRows (witness_list : List Witness) (typed : ℕ → Bytes) : List (Witness × Bytes) :=
  (voteTable witness_list typed).filter rowHeld

/-- The names under which the rows are voted for. -/
def tableNames (rows : List (Witness × Bytes)) : StringMap :=
  rows.foldl (fun names row => names.emplace (addressEncodeBase58Check P row.1.address)
    (shown row.1.url)) SortedMap.empty

/-- The name of an address in rows: that of the first row with the address. -/
def nameInRows (rows : List (Witness × Bytes)) (address : Bytes) : Bytes :=
  ((rows.find? fun row => row.1.address = address).map fun row => shown row.1.url).getD []

/-- The name a row adds. -/
theorem addVote_names (acc : List Vote × StringMap) {row : Witness × Bytes}
    (hdigits : DigitText row.2) :
    (VoteForm.addVote P utfConversions acc (rowItem P utfConversions row)).2 =
      if rowHeld row then
        acc.2.emplace (addressEncodeBase58Check P row.1.address) (shown row.1.url)
      else acc.2 := by
  obtain ⟨w, text⟩ := row
  have hread : stringToInt64 (wideToUTF8 utfConversions (widen text)) =
      (decide (text ≠ [] ∧ typedNumber text < 2 ^ 63),
        min (typedNumber text : ℤ) (2 ^ 63 - 1)) := stringToInt64_widen utfConversions hdigits
  have hcell : (rowItem P utfConversions (w, text)).myvotes = widen text := rfl
  have hname : wideToUTF8 utfConversions (rowItem P utfConversions (w, text)).website =
      shown w.url := rfl
  have haddress : wideToUTF8 utfConversions (rowItem P utfConversions (w, text)).address =
      addressEncodeBase58Check P w.address :=
    wideToUTF8_utf8ToWide utfConversions fun c hc =>
      ascii_of_base58Char (base58Char_encodeBase58 _ c hc)
  unfold VoteForm.addVote
  rw [hcell, hread, haddress, hname]
  by_cases hnil : text = []
  · have hskipped : rowHeld (w, text) = false := decide_eq_false fun h => h.1 hnil
    rw [if_pos (by rw [hnil]; rfl), hskipped]
    rfl
  have hfilled : widen text ≠ [] := fun h => hnil (List.map_eq_nil_iff.mp h)
  rw [if_neg hfilled]
  by_cases hlt : typedNumber text < 2 ^ 63
  · have hheld : rowHeld (w, text) = true := decide_eq_true ⟨hnil, hlt⟩
    rw [decide_eq_true ⟨hnil, hlt⟩, hheld]
    rfl
  · have hleft : rowHeld (w, text) = false := decide_eq_false fun h => hlt h.2
    rw [decide_eq_false fun h => hlt h.2, hleft]
    rfl

/-- **The names of the rows**, by induction on the rows: those of the rows that are held. -/
theorem foldl_addVote_names {table : List (Witness × Bytes)}
    (hdigits : ∀ row ∈ table, DigitText row.2) (acc : List Vote × StringMap) :
    ((table.map (rowItem P utfConversions)).foldl (VoteForm.addVote P utfConversions) acc).2 =
      (table.filter rowHeld).foldl (fun names row => names.emplace
        (addressEncodeBase58Check P row.1.address) (shown row.1.url)) acc.2 := by
  induction table generalizing acc with
  | nil => rfl
  | cons row table ih =>
      rw [List.map_cons, List.foldl_cons, ih fun r hr => hdigits r (List.mem_cons_of_mem _ hr),
        addVote_names P acc (hdigits row List.mem_cons_self)]
      cases hheld : rowHeld row
      · rw [List.filter_cons_of_neg (by simp [hheld])]
        rfl
      · rw [List.filter_cons_of_pos hheld]
        rfl

/-- The names of a form in which nothing was voted for before. -/
theorem address_url_filledForm {w : Wallet} {s : VoteForm} {owner : Bytes}
    {witness_list : List Witness} {typed : ℕ → Bytes} (howner : s.owner w = some owner)
    (hnew : s.address_url_ = SortedMap.empty) (hdigits : ∀ i, DigitText (typed i)) :
    ((filledForm P utfConversions s witness_list typed).createVoteContract P utfConversions
      w).2.address_url_ = tableNames P (heldRows witness_list typed) := by
  have hfilled : (filledForm P utfConversions s witness_list typed).owner w = some owner := howner
  have htable : ∀ row ∈ voteTable witness_list typed, DigitText row.2 := by
    intro row hrow
    obtain ⟨i, hi, rfl⟩ := List.mem_mapIdx.mp hrow
    exact hdigits i
  have hnames := foldl_addVote_names P htable ([], SortedMap.empty)
  rw [← witness_filledForm s] at hnames
  have hempty : (filledForm P utfConversions s witness_list typed).address_url_ =
      SortedMap.empty := hnew
  unfold VoteForm.createVoteContract
  rw [hfilled, hempty]
  exact hnames

/-- Every address of the rows has the name of its first row. -/
theorem lookup_tableNames (rows : List (Witness × Bytes)) (address : Bytes) :
    (tableNames P rows).lookup (addressEncodeBase58Check P address) =
      (rows.find? fun row => row.1.address = address).map fun row => shown row.1.url := by
  have hinjective : ∀ row : Witness × Bytes, decide (addressEncodeBase58Check P row.1.address =
      addressEncodeBase58Check P address) = decide (row.1.address = address) := by
    intro row
    refine decide_eq_decide.mpr ⟨fun h => ?_, fun h => by rw [h]⟩
    have hdecoded := congrArg (fun b => (decodeBase58Check P b).2) h
    simpa only [addressEncodeBase58Check, decodeBase58Check_encodeBase58Check] using hdecoded
  rw [tableNames, SortedMap.lookup_foldl_emplace, SortedMap.lookup_empty, Option.none_or]
  simp only [hinjective]

/-- Every entry of the names belongs to a row. -/
theorem mem_tableNames {rows : List (Witness × Bytes)} {e : Bytes × Bytes} :
    e ∈ (tableNames P rows).entries ↔
      ∃ row ∈ rows, e = (addressEncodeBase58Check P row.1.address,
        nameInRows rows row.1.address) := by
  rw [SortedMap.mem_entries_iff]
  constructor
  · intro h
    have hfound := h
    rw [tableNames, SortedMap.lookup_foldl_emplace, SortedMap.lookup_empty, Option.none_or] at h
    obtain ⟨row, hrow, -⟩ := Option.map_eq_some_iff.mp h
    have hkey : addressEncodeBase58Check P row.1.address = e.1 := by
      simpa using List.find?_some hrow
    rw [← hkey, lookup_tableNames] at hfound
    refine ⟨row, List.mem_of_find?_eq_some hrow, Prod.ext hkey.symm ?_⟩
    rw [nameInRows, hfound, Option.getD_some]
  · rintro ⟨row, hrow, rfl⟩
    rw [lookup_tableNames, nameInRows]
    obtain ⟨first, hfirst⟩ : ∃ first, rows.find? (fun r => r.1.address = row.1.address) =
        some first := Option.isSome_iff_exists.mp
      (List.find?_isSome.mpr ⟨row, hrow, decide_eq_true rfl⟩)
    rw [hfirst]
    rfl

/-- The keys of the names are addresses. -/
theorem base58_tableNames (rows : List (Witness × Bytes)) :
    ∀ e ∈ (tableNames P rows).entries, ∀ c ∈ e.1, Base58Char c := by
  intro e he
  obtain ⟨row, -, rfl⟩ := (mem_tableNames P).mp he
  exact base58Char_encodeBase58 _

/-- What is left of what is left of a readable name. -/
theorem keptNames_keptNames (h : ∀ e ∈ names.entries, WritableText e.2) :
    keptNames (keptNames names) = keptNames names := by
  apply SortedMap.ext_entries
  change ((names.entries.map fun e => (e.1, keptText e.2)).map fun e => (e.1, keptText e.2)) =
    names.entries.map fun e => (e.1, keptText e.2)
  rw [List.map_map]
  refine List.map_congr_left fun e he => ?_
  exact congrArg (Prod.mk e.1) (keptText_of_cleanText (cleanText_keptText (h e he)))

/-- **The names of a vote made from the table, through every file it is carried in.** When the
reader accepts the names voted for, the file is loaded with what is left of them, and whatever
transaction takes the place of the one saved, a file with these names is loaded with the same
names. When it does not accept one of them, the file is loaded without the transaction. -/
theorem loadVote_of_voteTable {w : Wallet} {s : VoteForm} {owner : Bytes}
    {witness_list : List Witness} {typed : ℕ → Bytes} {disk : Disk} {dir : Bytes}
    {files files' : Files} (howner : s.owner w = some owner)
    (hnew : s.address_url_ = SortedMap.empty) (hdigits : ∀ i, DigitText (typed i))
    (hparse : F.parseFromArray (F.serializeAsString t) = some t)
    (hsave : saveVote (walletFormats F doubleToString stringToDouble) disk dir
      ⟨some t, ((filledForm P utfConversions s witness_list typed).createVoteContract P
        utfConversions w).2.address_url_⟩ files = some (true, files')) :
    ((∀ row ∈ heldRows witness_list typed,
        WritableText (nameInRows (heldRows witness_list typed) row.1.address)) →
      ∃ names, loadVote (walletFormats F doubleToString stringToDouble) files'
          (savePath dir (toHex (F.serializeAsString t))) = some ⟨some t, names⟩ ∧
        (∀ row ∈ heldRows witness_list typed,
          VoteInfoForm.nameOf names (addressEncodeBase58Check P row.1.address) =
            keptText (nameInRows (heldRows witness_list typed) row.1.address)) ∧
        ∀ {t' : Transaction} {disk' : Disk} {dir' : Bytes} {before after : Files},
          F.parseFromArray (F.serializeAsString t') = some t' →
          saveVote (walletFormats F doubleToString stringToDouble) disk' dir' ⟨some t', names⟩
            before = some (true, after) →
          loadVote (walletFormats F doubleToString stringToDouble) after
            (savePath dir' (toHex (F.serializeAsString t'))) = some ⟨some t', names⟩) ∧
    ((∃ row ∈ heldRows witness_list typed,
        ¬WritableText (nameInRows (heldRows witness_list typed) row.1.address)) →
      loadVote (walletFormats F doubleToString stringToDouble) files'
        (savePath dir (toHex (F.serializeAsString t))) = some {}) := by
  rw [address_url_filledForm P howner hnew hdigits] at hsave
  generalize heldRows witness_list typed = rows at hsave ⊢
  have hload := loadVote_of_json (F := walletFormats F doubleToString stringToDouble)
    (fun _ => rfl) (fun _ => rfl) (base58_tableNames P rows) hparse hsave
  have hall : (∀ e ∈ (tableNames P rows).entries, WritableText e.2) ↔
      ∀ row ∈ rows, WritableText (nameInRows rows row.1.address) := by
    constructor
    · exact fun h row hrow => h _ ((mem_tableNames P).mpr ⟨row, hrow, rfl⟩)
    · intro h e he
      obtain ⟨row, hrow, rfl⟩ := (mem_tableNames P).mp he
      exact h row hrow
  constructor
  · intro hwritable
    have hentries := hall.mpr hwritable
    rw [if_pos hentries] at hload
    refine ⟨keptNames (tableNames P rows), hload, fun row hrow => ?_, ?_⟩
    · have hentry : (addressEncodeBase58Check P row.1.address, nameInRows rows row.1.address) ∈
          (tableNames P rows).entries := (mem_tableNames P).mpr ⟨row, hrow, rfl⟩
      have hlookup := SortedMap.lookup_mapValues keptText (tableNames P rows)
        (addressEncodeBase58Check P row.1.address)
      rw [SortedMap.mem_entries_iff.mp hentry] at hlookup
      exact congrArg (fun o => o.getD []) hlookup
    · intro t' disk' dir' before after hparse' hsave'
      have hkept : ∀ e ∈ (keptNames (tableNames P rows)).entries,
          (∀ c ∈ e.1, Base58Char c) ∧ WritableText e.2 := by
        unfold keptNames SortedMap.mapValues
        refine List.forall_mem_map.mpr fun e he => ⟨base58_tableNames P rows e he, ?_⟩
        exact writableText_of_validText (cleanText_keptText (hentries e he)).1
      have hload' := loadVote_of_json (F := walletFormats F doubleToString stringToDouble)
        (fun _ => rfl) (fun _ => rfl) (fun e he => (hkept e he).1) hparse' hsave'
      rwa [if_pos fun e he => (hkept e he).2, keptNames_keptNames hentries] at hload'
  · rintro ⟨row, hrow, hnot⟩
    rwa [if_neg fun h => hnot (hall.mp h row hrow)] at hload

/-- A witness whose name is a noncharacter. -/
def unreadableWitness : Witness := { address := [65, 1], url := [0xEF, 0xBF, 0xBF] }

/-- The vote for the witness with the noncharacter. -/
def unreadableVote : VoteData :=
  ⟨some voteOnce, ((filledForm reference utfConversions offlineForm [unreadableWitness]
    fun _ => [49]).createVoteContract reference utfConversions {}).2.address_url_⟩

/-- The files after it has been saved. -/
def unreadableFiles : Files :=
  ((saveVote (walletFormats formats (fun _ => []) fun _ => none) ⟨true, true⟩ [67] unreadableVote
    ∅).getD (false, ∅)).2

/-- The vote is saved, and the transaction in its file is gone. -/
theorem loadVote_of_voteTable_unreadable :
    saveVote (walletFormats formats (fun _ => []) fun _ => none) ⟨true, true⟩ [67] unreadableVote
        ∅ = some (true, unreadableFiles) ∧
      loadVote (walletFormats formats (fun _ => []) fun _ => none) unreadableFiles
        (savePath [67] (toHex (formats.serializeAsString voteOnce))) = some {} := by
  have hsave : saveVote (walletFormats formats (fun _ => []) fun _ => none) ⟨true, true⟩ [67]
      unreadableVote ∅ = some (true, unreadableFiles) := rfl
  have hheld : heldRows [unreadableWitness] (fun _ => [49]) = [(unreadableWitness, [49])] := rfl
  have howner : offlineForm.owner {} = some [65] := by decide
  refine ⟨hsave, (loadVote_of_voteTable reference howner rfl (fun _ => by decide)
    readsBack_voteOnce.parse_serialize hsave).2 ⟨(unreadableWitness, [49]), ?_, ?_⟩⟩
  · rw [hheld]
    exact List.mem_singleton_self _
  · rw [hheld]
    decide

end Table

end TronWallet.Theorems
