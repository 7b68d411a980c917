import TronWallet.Analysis.HexText
import TronWallet.Model.TransactionManager
import TronWallet.Reference.Formats

/-!
# Files that are loaded

`LoadTransaction` and `LoadVote` read a JSON dictionary, the text under `hex` in it and a
transaction from the bytes of that text.  `fromHex` reports an error by returning no bytes,
and no bytes are a valid message, so a file with a bad digit is loaded as an empty
transaction; texts of odd length and texts after `0x` have bytes as well.  The value under
`map` is used as a dictionary whatever it is.

`loadTransaction_of_entry` and `loadVote_of_entry` say what is loaded from what a content
holds; `rejectsMalformed_iff` and `treatsMap_iff` say for which contents that is as it
should be.
-/

set_option autoImplicit false

namespace TronWallet.Theorems

open TronWallet.Lib TronWallet.Model TronWallet.Analysis TronWallet.Reference

variable (F : FileFormats)

/-! ## What a content holds -/

/-- The dictionary of a content and the text under `hex` in it. -/
def HoldsHex (content : Bytes) (root : Dictionary) (hex : Bytes) : Prop :=
  F.jsonRead content = some (.dictionary root) ∧ Dictionary.getString root hexKey = some hex

/-- **A content encodes a transaction**: under `hex` there is an even number of hexadecimal
digits, whose bytes are parsed as the transaction. -/
def EncodesTransaction (content : Bytes) (t : Transaction) : Prop :=
  ∃ root hex bytes, HoldsHex F content root hex ∧ hexBytes hex = some bytes ∧
    F.parseFromArray bytes = some t

/-- What is under `map` is a dictionary, if there is anything. -/
def MapFits (root : Dictionary) : Prop :=
  ∀ value, Dictionary.find root mapKey = some value → ∃ map, value = .dictionary map

/-- The names taken from a dictionary, `none` where `map` is no dictionary. -/
def namesOf (root : Dictionary) : Option StringMap :=
  match Dictionary.find root mapKey with
  | none => some SortedMap.empty
  | some (.dictionary map) => some (addressUrl map)
  | some _ => none

/-- The names can be read exactly when what is under `map` fits. -/
theorem namesOf_isSome_iff (root : Dictionary) : (namesOf root).isSome ↔ MapFits root := by
  unfold namesOf MapFits
  cases Dictionary.find root mapKey with
  | none => simp
  | some value => cases value <;> simp

variable {F} {files : Files} {path content : Bytes}

/-- A content holds one dictionary and one text. -/
theorem HoldsHex.unique {root root' : Dictionary} {hex hex' : Bytes}
    (h : HoldsHex F content root hex) (h' : HoldsHex F content root' hex') :
    root = root' ∧ hex = hex' := by
  obtain ⟨hread, hhex⟩ := h
  obtain ⟨hread', hhex'⟩ := h'
  rw [hread] at hread'
  cases hread'
  rw [hhex] at hhex'
  cases hhex'
  exact ⟨rfl, rfl⟩

/-- What is encoded where the text under `hex` has bytes. -/
theorem encodesTransaction_iff {root : Dictionary} {hex : Bytes} (h : HoldsHex F content root hex)
    (t : Transaction) :
    EncodesTransaction F content t ↔
      ∃ bytes, hexBytes hex = some bytes ∧ F.parseFromArray bytes = some t := by
  constructor
  · rintro ⟨root', hex', bytes, hholds, hbytes, hparse⟩
    obtain ⟨-, rfl⟩ := h.unique hholds
    exact ⟨bytes, hbytes, hparse⟩
  · rintro ⟨bytes, hbytes, hparse⟩
    exact ⟨root, hex, bytes, h, hbytes, hparse⟩

/-! ## What is loaded -/

/-- A file that exists is read as JSON. -/
theorem deserializeFile_of_lookup (hfile : files.lookup path = some content) :
    deserializeFile F files path = F.jsonRead content := by
  unfold deserializeFile
  rw [hfile, Option.bind_some]

/-- The transaction loaded from a content with a text under `hex`. -/
theorem loadTransaction_of_entry (hfile : files.lookup path = some content) {root : Dictionary}
    {hex : Bytes} (h : HoldsHex F content root hex) :
    loadTransaction F files path = F.parseFromArray (fromHex hex) := by
  unfold loadTransaction
  rw [deserializeFile_of_lookup hfile, h.1]
  simp only [h.2, Option.bind_some]

/-- The vote loaded from a content with a text under `hex`. -/
theorem loadVote_of_entry (hfile : files.lookup path = some content) {root : Dictionary}
    {hex : Bytes} (h : HoldsHex F content root hex) :
    loadVote F files path =
      match F.parseFromArray (fromHex hex) with
      | none => some {}
      | some t => (namesOf root).map fun names => ⟨some t, names⟩ := by
  unfold loadVote namesOf
  rw [deserializeFile_of_lookup hfile, h.1]
  simp only [h.2]
  cases F.parseFromArray (fromHex hex) with
  | none => rfl
  | some t =>
      dsimp only
      cases Dictionary.find root mapKey with
      | none => rfl
      | some value => cases value <;> rfl

/-- Nothing is loaded from a content without a text under `hex`. -/
theorem load_of_no_entry (hfile : files.lookup path = some content)
    (h : ∀ root hex, ¬ HoldsHex F content root hex) :
    loadTransaction F files path = none ∧ loadVote F files path = some {} := by
  unfold loadTransaction loadVote
  rw [deserializeFile_of_lookup hfile]
  cases hread : F.jsonRead content with
  | none => exact ⟨rfl, rfl⟩
  | some value =>
      cases value with
      | dictionary root =>
          have hnone : Dictionary.getString root hexKey = none := by
            rw [Option.eq_none_iff_forall_ne_some]
            intro hex hhex
            exact h root hex ⟨hread, hhex⟩
          simp [hnone]
      | _ => exact ⟨rfl, rfl⟩

/-! ## Malformed files -/

/-- **Malformed files are rejected**: a transaction is loaded exactly from a content that
encodes it, by either function. -/
def RejectsMalformed (F : FileFormats) (files : Files) (path content : Bytes) : Prop :=
  (∀ t, loadTransaction F files path = some t ↔ EncodesTransaction F content t) ∧
    ∃ v, loadVote F files path = some v ∧
      ∀ t, v.transaction = some t ↔ EncodesTransaction F content t

/-- The condition on a content: what is under `hex`, if it is a text, is an even number of
digits, and `map` is as it should be if they are parsed; or it has digits after `0x` or in
an odd number and they are not parsed. -/
def ParsesAsMeant (F : FileFormats) (content : Bytes) : Prop :=
  ∀ root hex, HoldsHex F content root hex →
    (∃ bytes, hexBytes hex = some bytes ∧ (F.parseFromArray bytes = none ∨ MapFits root)) ∨
      hexBytes hex = none ∧
        ∃ bytes, hexBytes (evened (stripped hex)) = some bytes ∧ F.parseFromArray bytes = none

/-- What the condition says of a content with a text under `hex`. -/
theorem parsesAsMeant_iff {root : Dictionary} {hex : Bytes} (h : HoldsHex F content root hex) :
    ParsesAsMeant F content ↔
      (∃ bytes, hexBytes hex = some bytes ∧ (F.parseFromArray bytes = none ∨ MapFits root)) ∨
        hexBytes hex = none ∧
          ∃ bytes, hexBytes (evened (stripped hex)) = some bytes ∧
            F.parseFromArray bytes = none := by
  constructor
  · intro hmeant
    exact hmeant root hex h
  · intro hcases root' hex' h'
    obtain ⟨rfl, rfl⟩ := h.unique h'
    exact hcases

/-- An even number of digits is loaded as its bytes are parsed. -/
theorem rejectsMalformed_of_digits (hfile : files.lookup path = some content)
    {root : Dictionary} {hex bytes : Bytes} (h : HoldsHex F content root hex)
    (hbytes : hexBytes hex = some bytes) :
    RejectsMalformed F files path content ↔ F.parseFromArray bytes = none ∨ MapFits root := by
  have hencodes : ∀ t, EncodesTransaction F content t ↔ F.parseFromArray bytes = some t := by
    intro t
    rw [encodesTransaction_iff h, hbytes]
    simp
  unfold RejectsMalformed
  rw [loadTransaction_of_entry hfile h, loadVote_of_entry hfile h, fromHex_of_hexBytes hbytes]
  simp only [hencodes]
  cases hparse : F.parseFromArray bytes with
  | none => simp
  | some t =>
      rw [← namesOf_isSome_iff]
      cases namesOf root with
      | none => simp
      | some names => simp

/-- Any other text should not be loaded. -/
theorem rejectsMalformed_of_other (hfile : files.lookup path = some content)
    {root : Dictionary} {hex : Bytes} (h : HoldsHex F content root hex)
    (hother : hexBytes hex = none) :
    RejectsMalformed F files path content ↔ F.parseFromArray (fromHex hex) = none := by
  have hencodes : ∀ t, ¬ EncodesTransaction F content t := by
    intro t
    rw [encodesTransaction_iff h, hother]
    simp
  unfold RejectsMalformed
  rw [loadTransaction_of_entry hfile h, loadVote_of_entry hfile h]
  simp only [hencodes]
  cases F.parseFromArray (fromHex hex) with
  | none => simp
  | some t => simp

/-- **Exactly the contents for which malformed files are rejected.** -/
theorem rejectsMalformed_iff (hfile : files.lookup path = some content)
    (hempty : F.parseFromArray [] = some {}) :
    RejectsMalformed F files path content ↔ ParsesAsMeant F content := by
  by_cases hentry : ∃ root hex, HoldsHex F content root hex
  · obtain ⟨root, hex, hholds⟩ := hentry
    rw [parsesAsMeant_iff hholds]
    cases hbytes : hexBytes hex with
    | some bytes =>
        rw [rejectsMalformed_of_digits hfile hholds hbytes]
        simp
    | none =>
        rw [rejectsMalformed_of_other hfile hholds hbytes, fromHex_eq]
        cases hlenient : hexBytes (evened (stripped hex)) with
        | none =>
            -- a bad digit: no bytes are left, and they are parsed
            simp [hempty]
        | some bytes => simp
  · have hnothing : ∀ root hex, ¬ HoldsHex F content root hex := by
      intro root hex hholds
      exact hentry ⟨root, hex, hholds⟩
    have hnever : ∀ t, ¬ EncodesTransaction F content t := by
      rintro t ⟨root, hex, -, hholds, -⟩
      exact hnothing root hex hholds
    obtain ⟨hload, hvote⟩ := load_of_no_entry hfile hnothing
    refine iff_of_true ⟨?_, {}, hvote, ?_⟩ ?_
    · intro t
      rw [hload]
      simp [hnever t]
    · intro t
      simp [hnever t]
    · intro root hex hholds
      exact absurd hholds (hnothing root hex)

/-! ## The value under `map` -/

/-- **Only dictionaries are treated as dictionaries**: the names are the texts among the
entries of a dictionary under `map`, and there are none otherwise. -/
def TreatsMap (root : Dictionary) (t : Transaction) (result : Option VoteData) : Prop :=
  ∃ v, result = some v ∧ v.transaction = some t ∧
    match Dictionary.find root mapKey with
    | some (.dictionary map) => ∀ e, e ∈ v.address_url.entries ↔ (e.1, Value.string e.2) ∈ map
    | _ => v.address_url = SortedMap.empty

/-- An entry whose value is a text. -/
def textEntry (e : Bytes × Value) : Option (Bytes × Bytes) :=
  match e.2 with
  | .string s => some (e.1, s)
  | _ => none

/-- An entry counts when its value is a string. -/
theorem textEntry_eq_some_iff (e : Bytes × Value) (p : Bytes × Bytes) :
    textEntry e = some p ↔ e = (p.1, .string p.2) := by
  obtain ⟨k, v⟩ := e
  obtain ⟨k', s⟩ := p
  cases v <;> simp [textEntry]

/-- The texts of a dictionary in the order of its keys are emplaced one after the other. -/
theorem addressUrl_entries {map : Dictionary} (hsorted : map.Sorted) :
    (addressUrl map).entries = map.filterMap textEntry := by
  have hfold : addressUrl map =
      (map.filterMap textEntry).foldl (fun names e => names.emplace e.1 e.2) SortedMap.empty := by
    rw [List.foldl_filterMap]
    unfold addressUrl
    congr 1
    funext names e
    obtain ⟨k, v⟩ := e
    cases v <;> rfl
  have hkeys : ((map.filterMap textEntry).map Prod.fst).Pairwise (· < ·) := by
    rw [List.pairwise_map, List.pairwise_filterMap]
    refine (List.pairwise_map.mp hsorted).imp ?_
    intro e e' hlt p hp p' hp'
    rw [textEntry_eq_some_iff] at hp hp'
    rw [hp, hp'] at hlt
    exact hlt
  rw [hfold, SortedMap.entries_foldl_emplace _ _ hkeys]
  rfl

/-- The table holds exactly the entries of the map that are strings. -/
theorem mem_addressUrl_iff {map : Dictionary} (hsorted : map.Sorted) (e : Bytes × Bytes) :
    e ∈ (addressUrl map).entries ↔ (e.1, Value.string e.2) ∈ map := by
  rw [addressUrl_entries hsorted, List.mem_filterMap]
  constructor
  · rintro ⟨e', hmem, he'⟩
    rw [textEntry_eq_some_iff] at he'
    rwa [← he']
  · intro hmem
    exact ⟨_, hmem, (textEntry_eq_some_iff _ _).mpr rfl⟩

/-- **Exactly the contents with a parsed `hex` for which only dictionaries are treated as
dictionaries.** -/
theorem treatsMap_iff (hfile : files.lookup path = some content) {root : Dictionary}
    {hex : Bytes} {t : Transaction} (h : HoldsHex F content root hex)
    (hparse : F.parseFromArray (fromHex hex) = some t)
    (hsorted : ∀ map, Dictionary.find root mapKey = some (.dictionary map) →
      Dictionary.Sorted map) :
    TreatsMap root t (loadVote F files path) ↔ MapFits root := by
  rw [loadVote_of_entry hfile h, hparse, ← namesOf_isSome_iff]
  unfold TreatsMap namesOf
  cases hmap : Dictionary.find root mapKey with
  | none => simp
  | some value =>
      cases value with
      | dictionary map =>
          simp [mem_addressUrl_iff (hsorted map hmap)]
      | _ => simp

/-! ## Given files -/

/-- The file of a dictionary. -/
def fileOfEntries (root : Dictionary) : Files :=
  (∅ : Files).insert [67] (prettyWrite (.dictionary root))

/-- The file made holds the text of the dictionary. -/
theorem lookup_fileOfEntries (root : Dictionary) :
    (fileOfEntries root).lookup [67] = some (prettyWrite (.dictionary root)) :=
  AList.lookup_insert _

/-- No bytes are parsed as the empty transaction. -/
theorem parse_nil : formats.parseFromArray [] = some {} := by decide

/-- A file whose text is two bytes. -/
def twoBytes : Dictionary := [(hexKey, .string [48, 97, 48, 48])]

/-- The file with two bytes in hexadecimal holds what it is to hold. -/
theorem holdsHex_twoBytes :
    HoldsHex formats (prettyWrite (.dictionary twoBytes)) twoBytes [48, 97, 48, 48] :=
  ⟨rfl, rfl⟩

/-- A file with an even number of digits is loaded as it should be. -/
theorem rejectsMalformed_twoBytes :
    RejectsMalformed formats (fileOfEntries twoBytes) [67]
      (prettyWrite (.dictionary twoBytes)) := by
  refine (rejectsMalformed_iff (lookup_fileOfEntries twoBytes) parse_nil).mpr ?_
  rw [parsesAsMeant_iff holdsHex_twoBytes]
  refine Or.inl ⟨[10, 0], rfl, Or.inr ?_⟩
  intro value hvalue
  cases hvalue

/-- A file with a bad digit. -/
def badDigit : Dictionary := [(hexKey, .string [122, 122])]

/-- So does the file with a digit that is none. -/
theorem holdsHex_badDigit :
    HoldsHex formats (prettyWrite (.dictionary badDigit)) badDigit [122, 122] :=
  ⟨rfl, rfl⟩

/-- A bad digit is loaded as an empty transaction. -/
theorem bad_digit_loaded :
    ¬ RejectsMalformed formats (fileOfEntries badDigit) [67]
      (prettyWrite (.dictionary badDigit)) := by
  rw [rejectsMalformed_of_other (lookup_fileOfEntries badDigit) holdsHex_badDigit rfl]
  have hload : fromHex [122, 122] = [] := by decide
  rw [hload, parse_nil]
  simp

/-- A file of a vote for one address. -/
def oneVote : Dictionary :=
  [(hexKey, .string [48, 97, 48, 48]), (mapKey, .dictionary [([65], .string [119])])]

/-- So does the file with one vote. -/
theorem holdsHex_oneVote :
    HoldsHex formats (prettyWrite (.dictionary oneVote)) oneVote [48, 97, 48, 48] :=
  ⟨rfl, rfl⟩

/-- The two bytes are parsed as the empty transaction. -/
theorem parse_twoBytes : formats.parseFromArray (fromHex [48, 97, 48, 48]) = some {} := by
  decide

/-- The name of the one address is loaded. -/
theorem treatsMap_oneVote :
    TreatsMap oneVote {} (loadVote formats (fileOfEntries oneVote) [67]) := by
  refine (treatsMap_iff (lookup_fileOfEntries oneVote) holdsHex_oneVote parse_twoBytes ?_).mpr ?_
  · intro map hmap
    cases hmap
    exact List.pairwise_singleton _ _
  · intro value hvalue
    cases hvalue
    exact ⟨_, rfl⟩

/-- A file with a text under `map`. -/
def textUnderMap : Dictionary :=
  [(hexKey, .string [48, 97, 48, 48]), (mapKey, .string [119])]

/-- So does the file with a text in place of the map. -/
theorem holdsHex_textUnderMap :
    HoldsHex formats (prettyWrite (.dictionary textUnderMap)) textUnderMap [48, 97, 48, 48] :=
  ⟨rfl, rfl⟩

/-- A text under `map` is iterated over. -/
theorem text_iterated :
    ¬ TreatsMap textUnderMap {} (loadVote formats (fileOfEntries textUnderMap) [67]) := by
  rw [loadVote_of_entry (lookup_fileOfEntries textUnderMap) holdsHex_textUnderMap, parse_twoBytes]
  rintro ⟨v, hv, -⟩
  cases hv

end TronWallet.Theorems
