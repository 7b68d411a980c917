import TronWallet.Analysis.JsonRoundTrip
import TronWallet.Theorems.ColdFileWrites

/-!
# The texts of the cold files

The cold wallet keeps its addresses and keys as the compact JSON text of a dictionary.  What
it relies on of the JSON library holds of the wallet's own writer and reader: such a text is
read back, and no beginning of it is JSON at all (`walletJson_laws`).  For the beginnings
only one character matters: a dictionary is read up to its closing brace, and the text has no
other one.
-/

set_option autoImplicit false

namespace TronWallet.Theorems

open TronWallet.Lib TronWallet.Model TronWallet.Analysis JSONParser

/-- The platform with the wallet's own compact writer and reader of JSON. -/
def walletJson (P : Platform) (doubleToString : ℚ → Bytes)
    (stringToDouble : Bytes → Option ℚ) : Platform :=
  { P with
    jsonWrite := fun v => ((⟨false, false, doubleToString⟩ : JSONWriter).write v).2
    jsonRead := deserialize stringToDouble }

variable {stringToDouble : Bytes → Option ℚ} {doubleToString : ℚ → Bytes}

/-! ## Dictionaries end with their brace -/

/-- The entries of a dictionary go up to a closing brace. -/
theorem brace_mem_of_entries {depth : ℕ} {text rest : Bytes} {phrase : Phrase}
    (h : Reads stringToDouble depth text phrase rest) (d : List (Bytes × Value))
    (hd : phrase = .entries d) : 125 ∈ text := by
  induction h generalizing d with
  | dictionaryEnd => exact List.mem_cons_self
  | @entry depth text key behindKey valueText behind next rest v d' name colon first separator _
      _ ih =>
      have hvalue : valueText <:+ behindKey := (List.suffix_cons _ _).trans
        (colon ▸ skipGap_suffix behindKey)
      have hbehind : behind <:+ valueText := first.suffix.trans (skipGap_suffix valueText)
      have hnext : next <:+ text :=
        ((separator.suffix.trans hbehind).trans hvalue).trans name.suffix
      exact List.mem_cons_of_mem _ (hnext.subset (ih d' rfl))
  | _ => cases hd

/-- An accepted text that begins with a brace has a closing one. -/
theorem brace_mem_of_accepted {text : Bytes} {v : Value}
    (h : Accepted stringToDouble (123 :: text) v) : 125 ∈ text := by
  obtain ⟨rest, hread, -⟩ := h
  have hmark : withoutMark (123 :: text) = 123 :: text := by
    unfold withoutMark
    rw [if_neg]
    intro hmark
    exact absurd (List.cons.inj hmark).1 (by decide)
  rw [hmark, skipGap_solid (by unfold IsSolid IsBlank; decide)] at hread
  obtain ⟨-, d, -, hbody⟩ := reads_brace_iff.mp hread
  exact (skipGap_suffix text).subset (brace_mem_of_entries hbody d rfl)

/-! ## The text that is written -/

/-- Letters and digits are ASCII. -/
theorem ascii_of_alphanumeric {c : UInt8} (h : Alphanumeric c) : c < 128 := by
  have hchar : c ≤ 122 := by
    rcases h with hdigit | hupper | hlower
    · exact UInt8.le_trans hdigit.2 (by decide)
    · exact UInt8.le_trans hupper.2 (by decide)
    · exact hlower.2
  exact UInt8.lt_of_le_of_lt hchar (by decide)

/-- Letters and digits are written and read back as they are. -/
theorem cleanText_of_alphanumeric {s : Bytes} (h : ∀ c ∈ s, Alphanumeric c) : CleanText s :=
  cleanText_of_ascii (fun c hc => ascii_of_alphanumeric (h c hc)) fun hzero =>
    absurd (h 0 hzero) (by decide)

/-- Letters and digits are not escaped. -/
theorem escapeCharacter_alphanumeric {c : UInt8} (h : Alphanumeric c) :
    escapeCharacter (Char.ofNat c.toNat) = [c] := by
  have hrange : (48 ≤ c.toNat ∧ c.toNat ≤ 57) ∨ (65 ≤ c.toNat ∧ c.toNat ≤ 90) ∨
      (97 ≤ c.toNat ∧ c.toNat ≤ 122) := h
  have hcode : (Char.ofNat c.toNat).toNat = c.toNat :=
    toNat_of_validCodepoint (validCodepoint_of_ascii (by omega))
  have hspecial : escapeSpecialCodePoint c.toNat = none := by
    rw [escapeSpecialCodePoint, if_neg (by omega), if_neg (by omega), if_neg (by omega),
      if_neg (by omega), if_neg (by omega), if_neg (by omega), if_neg (by omega),
      if_neg (by omega), if_neg (by omega), if_neg (by omega)]
  unfold escapeCharacter
  rw [hcode, hspecial]
  dsimp only
  rw [if_neg (by omega), writeUnicodeCharacter_ofNat (by omega), UInt8.ofNat_toNat]

/-- A string of letters and digits is written in quotes. -/
theorem escapeJSONString_alphanumeric {s : Bytes} (h : ∀ c ∈ s, Alphanumeric c) :
    (escapeJSONString s).2 = 34 :: (s ++ [34]) := by
  have hascii : ∀ c ∈ s, c < 128 := fun c hc => ascii_of_alphanumeric (h c hc)
  have hs : characters s = s.map fun c => Char.ofNat c.toNat := by
    conv_lhs => rw [← encodeAll_ascii hascii]
    exact characters_encodeAll _
  have hchar : ∀ c ∈ s, escapeCharacter (Char.ofNat c.toNat) = [c] := fun c hc =>
    escapeCharacter_alphanumeric (h c hc)
  rw [escapeJSONString, hs, List.flatMap_map, List.flatMap_congr hchar, List.flatMap_singleton']

/-- A string of letters and digits is written without a closing brace. -/
theorem brace_notMem_alphanumeric {s : Bytes} (h : ∀ c ∈ s, Alphanumeric c) :
    125 ∉ (escapeJSONString s).2 := by
  rw [escapeJSONString_alphanumeric h, List.mem_cons, List.mem_append, not_or, not_or]
  exact ⟨by decide, fun hmem => absurd (h 125 hmem) (by decide), by decide⟩

variable (doubleToString) in
/-- Compact entries of letters and digits hold no brace. -/
theorem brace_notMem_buildEntries {d : Dictionary} (h : Plain d) (first : Bool) (indent : ℕ) :
    125 ∉ ((⟨false, false, doubleToString⟩ : JSONWriter).buildEntries d first indent).2 := by
  induction d generalizing first with
  | nil =>
      rw [JSONWriter.buildEntries]
      exact List.not_mem_nil
  | cons e d ih =>
      obtain ⟨key, value⟩ := e
      obtain ⟨hkey, s, rfl, hs⟩ := h _ List.mem_cons_self
      have hentries := ih (fun e he => h e (List.mem_cons_of_mem _ he)) true
      have hcomma : (125 : UInt8) ∉ (if first = true then [44] else []) := by
        cases first <;> decide
      have homits : (⟨false, false, doubleToString⟩ : JSONWriter).omits (.string s) = false := rfl
      rw [JSONWriter.buildEntries, if_neg (by rw [homits]; decide), JSONWriter.buildJSONString]
      simp only [JSONWriter.indentLine, JSONWriter.pretty, Bool.false_eq_true, if_false,
        List.nil_append, List.mem_append, List.mem_cons, not_or]
      exact ⟨hcomma, brace_notMem_alphanumeric hkey, by decide, brace_notMem_alphanumeric hs,
        hentries⟩

variable (doubleToString) in
/-- The text of a dictionary of letters and digits has a brace at its end and no other. -/
theorem exists_write_plain {d : Dictionary} (h : Plain d) :
    ∃ entries, ((⟨false, false, doubleToString⟩ : JSONWriter).write (.dictionary d)).2 =
      123 :: (entries ++ [125]) ∧ 125 ∉ entries := by
  refine ⟨_, ?_, brace_notMem_buildEntries doubleToString h false 0⟩
  rw [JSONWriter.write, JSONWriter.buildJSONString]
  simp [JSONWriter.indentLine, JSONWriter.pretty]

/-! ## What the cold wallet relies on -/

variable (P : Platform)

/-- The text of a value is the one the writer makes. -/
theorem walletJson_jsonWrite (v : Value) :
    (walletJson P doubleToString stringToDouble).jsonWrite v =
      ((⟨false, false, doubleToString⟩ : JSONWriter).write v).2 := rfl

/-- The value of a text is the one the reader makes. -/
theorem walletJson_jsonRead (text : Bytes) :
    (walletJson P doubleToString stringToDouble).jsonRead text =
      deserialize stringToDouble text := rfl

/-- A plain dictionary in order is read back as it was written. -/
theorem storable_of_plain {d : Dictionary} (hsorted : d.Sorted) (h : Plain d) :
    Survives (kStackMaxDepth - 1) (.dictionary d) := by
  refine .dictionary hsorted (fun e he => cleanText_of_alphanumeric (h e he).1) fun e he => ?_
  obtain ⟨-, s, hs, hchars⟩ := h e he
  rw [hs]
  exact .string (cleanText_of_alphanumeric hchars)

/-- A text of a plain dictionary is read back. -/
theorem read_write_plain {d : Dictionary} (hsorted : d.Sorted) (h : Plain d) :
    deserialize stringToDouble
        ((⟨false, false, doubleToString⟩ : JSONWriter).write (.dictionary d)).2 =
      some (.dictionary d) := by
  have hsurvives := storable_of_plain hsorted h
  refine (deserialize_write_iff _ stringToDouble
    (hsurvives.imp (fun _ _ => trivial) fun _ hq => hq)).mpr ⟨?_, ?_⟩
  · exact hsurvives.imp (fun s hs => writableText_of_validText hs.1) fun _ hq => hq
  · exact (readBack_of_survives hsurvives).symm

/-- No beginning of the text of a plain dictionary is JSON. -/
theorem deserialize_take_plain {d : Dictionary} (h : Plain d) {n : ℕ}
    (hn : n < ((⟨false, false, doubleToString⟩ : JSONWriter).write (.dictionary d)).2.length) :
    deserialize stringToDouble
        (((⟨false, false, doubleToString⟩ : JSONWriter).write (.dictionary d)).2.take n) =
      none := by
  obtain ⟨entries, htext, hbrace⟩ := exists_write_plain doubleToString h
  rw [htext] at hn ⊢
  rw [Option.eq_none_iff_forall_ne_some]
  intro v hv
  have haccepted := (deserialize_eq_some_iff stringToDouble).mp hv
  cases n with
  | zero =>
      obtain ⟨rest, hread, -⟩ := haccepted
      exact absurd hread.shorter (by simp [withoutMark])
  | succ n =>
      rw [List.take_succ_cons] at haccepted
      rw [List.length_cons, List.length_append, List.length_singleton] at hn
      rw [List.take_append_of_le_length (by omega)] at haccepted
      exact hbrace (List.mem_of_mem_take (brace_mem_of_accepted haccepted))

/-- **The wallet's own JSON does what the cold wallet relies on**: the text of a cold dictionary
is read back as the dictionary, no text is empty, the empty text is no JSON, and neither is any
beginning of the text of a cold dictionary. -/
theorem walletJson_laws :
    JsonLaws (walletJson P doubleToString stringToDouble) ∧
      TornUnreadable (walletJson P doubleToString stringToDouble) := by
  refine ⟨⟨?_, ?_, rfl⟩, ?_⟩
  · intro d hsorted hplain
    rw [walletJson_jsonWrite, walletJson_jsonRead]
    exact read_write_plain hsorted hplain
  · intro d
    rw [walletJson_jsonWrite, JSONWriter.write, JSONWriter.buildJSONString]
    exact List.cons_ne_nil _ _
  · intro d _ hplain n hn
    rw [walletJson_jsonWrite] at hn ⊢
    rw [walletJson_jsonRead]
    exact deserialize_take_plain hplain hn

end TronWallet.Theorems
