import TronWallet.Analysis.JsonWriting

/-!
# A whole text that is written and read

The text of a value begins with the value and ends in a gap, so it is accepted as what is
left of the value.  What is left is the value itself if and only if its strings are UTF-8
that the reader lets through, without NULs.
-/

set_option autoImplicit false

namespace TronWallet.Analysis

open TronWallet.Lib TronWallet.Model JSONParser

/-! ## Strings that survive -/

/-- Characters that have been written are the characters that are read. -/
theorem characters_encodeAll (cs : List Char) : characters (utf8.encodeAll cs) = cs := by
  rw [characters, readCharacters_eq, utf8.readAll_encodeAll, List.map_map]
  exact List.map_id cs

/-- A valid text can be written so that it is read. -/
theorem writableText_of_validText {s : Bytes} (h : ValidText s) : WritableText s := by
  obtain ⟨cs, hcs, rfl⟩ := h
  unfold WritableText
  rw [characters_encodeAll]
  exact hcs

/-- No NUL is left of a character. -/
theorem zero_notMem_keptCharacter (c : Char) : 0 ∉ keptCharacter c := by
  unfold keptCharacter
  split_ifs with hc
  · exact List.not_mem_nil
  · exact zero_notMem_cbu8AppendUnsafe (isValidCodepoint_toNat c) hc

/-- What is left of a character is a valid text. -/
theorem validText_keptCharacter {c : Char} (h : isValidCharacter c.toNat = true) :
    ValidText (keptCharacter c) := by
  unfold keptCharacter
  split_ifs
  · exact validText_nil
  · exact validText_codePoint h

/-- What is left of a writable string survives. -/
theorem cleanText_keptText {s : Bytes} (h : WritableText s) : CleanText (keptText s) := by
  unfold WritableText at h
  unfold keptText
  generalize characters s = cs at h
  constructor
  · induction cs with
    | nil => exact validText_nil
    | cons c cs ih =>
        rw [List.flatMap_cons]
        exact (validText_keptCharacter (h c List.mem_cons_self)).append
          (ih fun d hd => h d (List.mem_cons_of_mem _ hd))
  · intro hzero
    obtain ⟨c, -, hc⟩ := List.mem_flatMap.mp hzero
    exact zero_notMem_keptCharacter c hc

/-- Of a string that survives everything is left. -/
theorem keptText_of_cleanText {s : Bytes} (h : CleanText s) : keptText s = s := by
  obtain ⟨⟨cs, -, rfl⟩, hzero⟩ := h
  rw [keptText, characters_encodeAll]
  induction cs with
  | nil => rfl
  | cons c cs ih =>
      rw [StreamCode.encodeAll_cons, List.mem_append, not_or] at hzero
      have hkept : keptCharacter c = utf8.encode c := by
        unfold keptCharacter
        rw [if_neg]
        · rfl
        · intro hc
          apply hzero.1
          change 0 ∈ cbu8AppendUnsafe c.toNat
          rw [hc]
          exact List.mem_cons_self
      rw [List.flatMap_cons, StreamCode.encodeAll_cons, hkept, ih hzero.2]

/-- ASCII without NULs survives. -/
theorem cleanText_of_ascii {s : Bytes} (h : ∀ c ∈ s, c < 128) (hzero : 0 ∉ s) : CleanText s := by
  refine ⟨⟨_, fun d hd => ?_, (encodeAll_ascii h).symm⟩, hzero⟩
  obtain ⟨c, hc, rfl⟩ := List.mem_map.mp hd
  have hlt : c.toNat < 128 := UInt8.lt_iff_toNat_lt.mp (h c hc)
  rw [toNat_of_validCodepoint (validCodepoint_of_ascii hlt)]
  exact decide_eq_true (by omega)

/-- ASCII without NULs survives, for a text that is given. -/
theorem cleanText_of_all {s : Bytes} (h : s.all (fun c => c < 128 ∧ c ≠ 0) = true) :
    CleanText s := by
  have hall : ∀ c ∈ s, c < 128 ∧ c ≠ 0 := fun c hc => of_decide_eq_true (List.all_eq_true.mp h c hc)
  exact cleanText_of_ascii (fun c hc => (hall c hc).1) fun hc => (hall 0 hc).2 rfl

/-! ## Values that survive -/

/-- A value that survives being written and read. -/
abbrev Survives (n : ℕ) (v : Value) : Prop := WellFormed CleanText (fun _ => False) n v

variable {n : ℕ}

/-- What is left of the items, one by one. -/
theorem readBackItems_eq_map (l : List Value) : readBackItems l = l.map readBack := by
  induction l with
  | nil => rfl
  | cons v l ih => rw [readBackItems, ih, List.map_cons]

/-- What is left of the entries, one by one. -/
theorem readBackEntries_eq_map (d : List (Bytes × Value)) :
    readBackEntries d = d.map fun e => (keptText e.1, readBack e.2) := by
  induction d with
  | nil => rfl
  | cons e d ih =>
      obtain ⟨key, v⟩ := e
      rw [readBackEntries, ih, List.map_cons]

/-- Entries in the order of their keys are set as they are. -/
theorem dictionaryOf_append {entries : List (Bytes × Value)} {dict : Dictionary}
    (h : Dictionary.Sorted (dict ++ entries)) : dictionaryOf entries dict = dict ++ entries := by
  induction entries generalizing dict with
  | nil => exact (List.append_nil dict).symm
  | cons e entries ih =>
      have habove : ∀ k ∈ dict.map Prod.fst, k < e.1 := by
        intro k hk
        unfold Dictionary.Sorted at h
        rw [List.map_append] at h
        exact (List.pairwise_append.mp h).2.2 k hk e.1 List.mem_cons_self
      have hstep : dict.setWithoutPathExpansion e.1 e.2 = dict ++ [e] :=
        Dictionary.setWithoutPathExpansion_of_lt e.2 habove
      change dictionaryOf entries (dict.setWithoutPathExpansion e.1 e.2) = _
      rw [hstep, ih (by rwa [List.append_assoc]), List.append_assoc]
      rfl

/-- A dictionary in order is rebuilt from its entries. -/
theorem dictionaryOf_sorted {d : Dictionary} (h : d.Sorted) : dictionaryOf d [] = d :=
  dictionaryOf_append h

/-- Of a value that survives everything is left. -/
theorem readBack_of_survives {v : Value} (h : Survives n v) : readBack v = v := by
  induction h with
  | null => rfl
  | boolean => rfl
  | integer => rfl
  | double number => exact number.elim
  | string characters => rw [readBack, keptText_of_cleanText characters]
  | @list n l _ ih =>
      rw [readBack, readBackItems_eq_map, List.map_congr_left ih, List.map_id']
  | @dictionary n d sorted keys _ ih =>
      have hentries : readBackEntries d = d := by
        rw [readBackEntries_eq_map]
        refine (List.map_congr_left fun e he => ?_).trans (List.map_id d)
        rw [keptText_of_cleanText (keys e he), ih e he]
        rfl
      rw [readBack, hentries, dictionaryOf_sorted sorted]

/-- What is left of a writable value survives. -/
theorem survives_readBack {v : Value} (h : Writable n v) : Survives n (readBack v) := by
  induction h with
  | null => exact .null
  | boolean b => exact .boolean b
  | integer low high => exact .integer low high
  | double number => exact number.elim
  | string characters =>
      rw [readBack]
      exact .string (cleanText_keptText characters)
  | list _ ih =>
      rw [readBack, readBackItems_eq_map]
      exact .list (List.forall_mem_map.mpr ih)
  | @dictionary n d _ keys _ ih =>
      have hmem : ∀ e ∈ dictionaryOf (readBackEntries d) [],
          ∃ e' ∈ d, (keptText e'.1, readBack e'.2) = e := by
        intro e he
        have hentry := (mem_dictionaryOf he).resolve_right List.not_mem_nil
        rw [readBackEntries_eq_map] at hentry
        exact List.mem_map.mp hentry
      rw [readBack]
      refine .dictionary (sorted_dictionaryOf _ List.Pairwise.nil) (fun e he => ?_) fun e he => ?_
      · obtain ⟨e', he', rfl⟩ := hmem e he
        exact cleanText_keptText (keys e' he')
      · obtain ⟨e', he', rfl⟩ := hmem e he
        exact ih e' he'

/-! ## Whole texts -/

section

variable (W : JSONWriter)

/-- The items of a list are written without a failure if each of them is. -/
theorem buildItems_ok {l : List Value} {first : Bool} {indent : ℕ}
    (h : ∀ v ∈ l, W.omits v = false ∧ ∀ indent, (W.buildJSONString v indent).1 = true) :
    (W.buildItems l first indent).1 = true := by
  induction l generalizing first with
  | nil => rw [JSONWriter.buildItems]
  | cons v l ih =>
      obtain ⟨homits, hok⟩ := h v List.mem_cons_self
      rw [JSONWriter.buildItems, if_neg (by rw [homits]; decide)]
      dsimp only
      rw [hok, ih fun v hv => h v (List.mem_cons_of_mem _ hv)]
      rfl

/-- The entries of a dictionary are written without a failure if each of them is. -/
theorem buildEntries_ok {d : List (Bytes × Value)} {first : Bool} {indent : ℕ}
    (h : ∀ e ∈ d, W.omits e.2 = false ∧ ∀ indent, (W.buildJSONString e.2 indent).1 = true) :
    (W.buildEntries d first indent).1 = true := by
  induction d generalizing first with
  | nil => rw [JSONWriter.buildEntries]
  | cons e d ih =>
      obtain ⟨key, v⟩ := e
      obtain ⟨homits, hok⟩ := h _ List.mem_cons_self
      rw [JSONWriter.buildEntries, if_neg (by rw [homits]; decide)]
      dsimp only
      rw [hok, ih fun e he => h e (List.mem_cons_of_mem _ he)]
      rfl

/-- A value without binary parts is written. -/
theorem buildJSONString_ok {v : Value} (h : Storable n v) (indent : ℕ) :
    (W.buildJSONString v indent).1 = true := by
  induction h generalizing indent with
  | null => rw [JSONWriter.buildJSONString]
  | boolean => rw [JSONWriter.buildJSONString]
  | integer => rw [JSONWriter.buildJSONString]
  | double number => exact number.elim
  | string => rw [JSONWriter.buildJSONString]
  | list items ih =>
      rw [JSONWriter.buildJSONString]
      exact buildItems_ok W fun v hv => ⟨omits_of_storable W (items v hv), ih v hv⟩
  | dictionary _ _ entries ih =>
      rw [JSONWriter.buildJSONString]
      exact buildEntries_ok W fun e he => ⟨omits_of_storable W (entries e he), ih e he⟩

/-- The end of a text is a gap. -/
theorem skipGap_end : skipGap (W.pretty kPrettyPrintLineEnding) = [] := by
  have h := skipGap_blanks (isBlank_lineEnding W) []
  rwa [List.append_nil, skipGap_nil] at h

variable (stringToDouble : Bytes → Option ℚ)

/-- **What the text of a stored value is accepted as.** -/
theorem accepted_write_iff {v v' : Value} (h : Storable (kStackMaxDepth - 1) v) :
    Accepted stringToDouble (W.write v).2 v' ↔
      Writable (kStackMaxDepth - 1) v ∧ v' = readBack v := by
  obtain ⟨c, more, hfirst, hc, -, -, hascii⟩ := first_of_storable W h 0
  have htext : (W.write v).2 = c :: (more ++ W.pretty kPrettyPrintLineEnding) := by
    rw [JSONWriter.write, hfirst, List.cons_append]
  have hmark : withoutMark (W.write v).2 = (W.write v).2 := by
    unfold withoutMark
    rw [if_neg]
    intro hmark
    rw [htext] at hmark
    rw [(List.cons.inj hmark).1] at hascii
    exact absurd hascii (by decide)
  have hgap : skipGap (W.write v).2 = (W.write v).2 := by rw [htext, skipGap_solid hc]
  have hreads : ReadsBack stringToDouble W (kStackMaxDepth - 1) v := readsBack_of_storable W h
  have hread := hreads 0 0 (W.pretty kPrettyPrintLineEnding) (by decide)
    (by rw [skipGap_end]; rfl) v'
  unfold Accepted
  rw [hmark, hgap, JSONWriter.write]
  constructor
  · rintro ⟨rest, hrest, -⟩
    obtain ⟨hwritable, rfl, -⟩ := (hread rest).mp hrest
    exact ⟨hwritable, rfl⟩
  · rintro ⟨hwritable, rfl⟩
    exact ⟨_, (hread _).mpr ⟨hwritable, rfl, rfl⟩, skipGap_end W⟩

/-- The reader gives back what the text is accepted as. -/
theorem deserialize_eq_some_iff {text : Bytes} {v : Value} :
    deserialize stringToDouble text = some v ↔ Accepted stringToDouble text v := by
  rw [← parse_eq_ok_iff, deserialize]
  cases parse stringToDouble text with
  | error e =>
      constructor
      · exact fun h => nomatch h
      · exact fun h => nomatch h
  | ok v => exact ⟨fun h => by rw [Option.some.inj h], fun h => by rw [Except.ok.inj h]; rfl⟩

/-- What is read of the text of a stored value. -/
theorem deserialize_write_iff {v v' : Value} (h : Storable (kStackMaxDepth - 1) v) :
    deserialize stringToDouble (W.write v).2 = some v' ↔
      Writable (kStackMaxDepth - 1) v ∧ v' = readBack v := by
  rw [deserialize_eq_some_iff, accepted_write_iff W stringToDouble h]

end

end TronWallet.Analysis
