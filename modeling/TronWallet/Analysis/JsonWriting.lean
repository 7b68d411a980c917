import TronWallet.Analysis.JsonValues
import TronWallet.Analysis.Texts

/-!
# What the writer writes is in the language of the parser

Each part of a written text is followed through the language: a character and its escape
sequence, a string, an integer, and by induction on the value the items of a list and the
entries of a dictionary.  What the parts stand for is `readBack`: the value that was written,
with the characters of its strings that can be read, and without NULs.
-/

set_option autoImplicit false

namespace TronWallet.Analysis

open TronWallet.Lib TronWallet.Model JSONParser

/-! ## What is left of a value -/

/-- A NUL is appended as an empty C string. -/
def keptCharacter (c : Char) : Bytes := if c.toNat = 0 then [] else writeUnicodeCharacter c

/-- What is left of a string that is written and read. -/
def keptText (s : Bytes) : Bytes := (characters s).flatMap keptCharacter

mutual

/-- What is left of a value that is written and read. -/
def readBack : Value → Value
  | .string s => .string (keptText s)
  | .list l => .list (readBackItems l)
  | .dictionary d => .dictionary (dictionaryOf (readBackEntries d) [])
  | v => v

def readBackItems : List Value → List Value
  | [] => []
  | v :: l => readBack v :: readBackItems l

def readBackEntries : List (Bytes × Value) → List (Bytes × Value)
  | [] => []
  | (key, v) :: d => (keptText key, readBack v) :: readBackEntries d

end

/-- A string of which the reader lets every character through. -/
def WritableText (s : Bytes) : Prop := ∀ c ∈ characters s, isValidCharacter c.toNat = true

instance (s : Bytes) : Decidable (WritableText s) :=
  List.decidableBAll (fun c : Char => isValidCharacter c.toNat = true) (characters s)

/-- A string that survives. -/
def CleanText (s : Bytes) : Prop := ValidText s ∧ 0 ∉ s

/-! ## Escape sequences -/

/-- The digits of a `\\u`. -/
def hexDigits (code_point : ℕ) : Bytes :=
  [upperHexDigit (code_point / 4096 % 16), upperHexDigit (code_point / 256 % 16),
    upperHexDigit (code_point / 16 % 16), upperHexDigit (code_point % 16)]

/-- The code points that are written as `\\u`. -/
theorem hexStringToInt_hexDigits {n : ℕ} (h : n < 32 ∨ n = 60 ∨ n = 0x2028 ∨ n = 0x2029) :
    hexStringToInt (hexDigits n) = (true, (n : ℤ)) := by
  have hcontrol : ∀ n < 32, hexStringToInt (hexDigits n) = (true, (n : ℤ)) := by decide
  rcases h with h | rfl | rfl | rfl
  · exact hcontrol n h
  · decide
  · decide
  · decide

/-- Four digits are read as the code point, which is no surrogate. -/
theorem consumeEscape_hexDigits {n : ℕ} (h : n < 32 ∨ n = 60 ∨ n = 0x2028 ∨ n = 0x2029)
    (text : Bytes) :
    consumeEscape (117 :: (hexDigits n ++ text)) = .ok (cStr (cbu8AppendUnsafe n), 5) := by
  have htake : (hexDigits n ++ text).take 4 = hexDigits n := rfl
  have hunit : toCodeUnit n = n := by
    unfold toCodeUnit
    omega
  have hsurrogate : isSurrogate n = false := decide_eq_false (by omega)
  have hvalid : isValidCharacter n = true := decide_eq_true (by omega)
  have hlength : ¬(hexDigits n ++ text).length < 4 := by
    rw [List.length_append]
    exact Nat.not_lt.mpr (Nat.le_add_right 4 _)
  have hdecode : decodeUTF16 (hexDigits n ++ text) = .ok (cStr (cbu8AppendUnsafe n), 3) := by
    unfold decodeUTF16
    dsimp only
    rw [if_neg hlength, htake, hexStringToInt_hexDigits h, if_neg (by simp)]
    dsimp only
    rw [hunit, hsurrogate, if_neg (by decide), hvalid, if_neg (by decide)]
  unfold consumeEscape
  dsimp only
  rw [if_neg (by decide), if_pos rfl, if_neg hlength, hdecode]

/-- A character is written as an escape sequence that stands for it, or as it is. -/
theorem escapeCharacter_cases (c : Char) :
    (isValidCharacter c.toNat = true ∧ ∃ sequence, escapeCharacter c = 92 :: sequence ∧
      ∀ text, consumeEscape (sequence ++ text) = .ok (keptCharacter c, sequence.length)) ∨
    (escapeCharacter c = cbu8AppendUnsafe c.toNat ∧ keptCharacter c = cbu8AppendUnsafe c.toNat ∧
      c.toNat ≠ 34 ∧ c.toNat ≠ 92) := by
  have hsimple : ∀ (n : ℕ) (mark b : UInt8), c.toNat = n → n ≠ 0 → n < 0x80 →
      cbu8AppendUnsafe n = [b] → (∀ text, consumeEscape (mark :: text) = .ok ([b], 1)) →
        isValidCharacter c.toNat = true ∧ ∃ sequence, [92, mark] = 92 :: sequence ∧
          ∀ text, consumeEscape (sequence ++ text) = .ok (keptCharacter c, sequence.length) := by
    intro n mark b hn hzero hlt hwritten hescape
    refine ⟨decide_eq_true (by omega), [mark], rfl, fun text => ?_⟩
    rw [keptCharacter, writeUnicodeCharacter, hn, if_neg hzero, hwritten]
    exact hescape text
  have hhex : c.toNat < 32 ∨ c.toNat = 60 ∨ c.toNat = 0x2028 ∨ c.toNat = 0x2029 →
      isValidCharacter c.toNat = true ∧ ∃ sequence, u16Escape c.toNat = 92 :: sequence ∧
        ∀ text, consumeEscape (sequence ++ text) = .ok (keptCharacter c, sequence.length) := by
    intro hn
    have hvalid : isValidCharacter c.toNat = true := decide_eq_true (by omega)
    refine ⟨hvalid, 117 :: hexDigits c.toNat, rfl, fun text => ?_⟩
    have hescape := consumeEscape_hexDigits hn text
    rw [cStr_cbu8AppendUnsafe (isValidCodepoint_of_isValidCharacter hvalid)] at hescape
    exact hescape
  unfold escapeCharacter escapeSpecialCodePoint
  by_cases h₁ : c.toNat = 8
  · rw [if_pos h₁]
    exact Or.inl (hsimple 8 98 8 h₁ (by decide) (by decide) rfl fun _ => rfl)
  by_cases h₂ : c.toNat = 12
  · rw [if_neg h₁, if_pos h₂]
    exact Or.inl (hsimple 12 102 12 h₂ (by decide) (by decide) rfl fun _ => rfl)
  by_cases h₃ : c.toNat = 10
  · rw [if_neg h₁, if_neg h₂, if_pos h₃]
    exact Or.inl (hsimple 10 110 10 h₃ (by decide) (by decide) rfl fun _ => rfl)
  by_cases h₄ : c.toNat = 13
  · rw [if_neg h₁, if_neg h₂, if_neg h₃, if_pos h₄]
    exact Or.inl (hsimple 13 114 13 h₄ (by decide) (by decide) rfl fun _ => rfl)
  by_cases h₅ : c.toNat = 9
  · rw [if_neg h₁, if_neg h₂, if_neg h₃, if_neg h₄, if_pos h₅]
    exact Or.inl (hsimple 9 116 9 h₅ (by decide) (by decide) rfl fun _ => rfl)
  by_cases h₆ : c.toNat = 92
  · rw [if_neg h₁, if_neg h₂, if_neg h₃, if_neg h₄, if_neg h₅, if_pos h₆]
    exact Or.inl (hsimple 92 92 92 h₆ (by decide) (by decide) rfl fun _ => rfl)
  by_cases h₇ : c.toNat = 34
  · rw [if_neg h₁, if_neg h₂, if_neg h₃, if_neg h₄, if_neg h₅, if_neg h₆, if_pos h₇]
    exact Or.inl (hsimple 34 34 34 h₇ (by decide) (by decide) rfl fun _ => rfl)
  rw [if_neg h₁, if_neg h₂, if_neg h₃, if_neg h₄, if_neg h₅, if_neg h₆, if_neg h₇]
  by_cases h₈ : c.toNat = 60
  · rw [if_pos h₈, ← h₈]
    exact Or.inl (hhex (Or.inr (Or.inl h₈)))
  by_cases h₉ : c.toNat = 0x2028
  · rw [if_neg h₈, if_pos h₉, ← h₉]
    exact Or.inl (hhex (Or.inr (Or.inr (Or.inl h₉))))
  by_cases h₁₀ : c.toNat = 0x2029
  · rw [if_neg h₈, if_neg h₉, if_pos h₁₀, ← h₁₀]
    exact Or.inl (hhex (Or.inr (Or.inr (Or.inr h₁₀))))
  rw [if_neg h₈, if_neg h₉, if_neg h₁₀]
  dsimp only
  by_cases hcontrol : c.toNat < 32
  · rw [if_pos hcontrol]
    exact Or.inl (hhex (Or.inl hcontrol))
  · rw [if_neg hcontrol, keptCharacter, if_neg (by omega)]
    exact Or.inr ⟨rfl, rfl, h₇, h₆⟩

/-- A character that is written is read if it is valid, in front of the rest of its string. -/
theorem readsString_escapeCharacter_iff {c : Char} {text string rest : Bytes} :
    ReadsString (escapeCharacter c ++ text) string rest ↔ isValidCharacter c.toNat = true ∧
      ∃ tail, string = keptCharacter c ++ tail ∧ ReadsString text tail rest := by
  rcases escapeCharacter_cases c with
    ⟨hvalid, sequence, hwritten, hescape⟩ | ⟨hwritten, hkept, hquote, hbackslash⟩
  · rw [hwritten, List.cons_append, readsString_escape_iff (hescape text), List.drop_left]
    exact ⟨fun h => ⟨hvalid, h⟩, fun h => h.2⟩
  · rw [hwritten, hkept,
      readsString_character_iff (isValidCodepoint_toNat c) hquote hbackslash]

/-- A string that is written is read if all its characters are valid. -/
theorem readsString_escapeAll_iff {cs : List Char} {tail string rest : Bytes} :
    ReadsString (cs.flatMap escapeCharacter ++ 34 :: tail) string rest ↔
      (∀ c ∈ cs, isValidCharacter c.toNat = true) ∧ string = cs.flatMap keptCharacter ∧
        rest = tail := by
  induction cs generalizing string with
  | nil =>
      rw [List.flatMap_nil, List.nil_append, readsString_quote_iff, List.flatMap_nil]
      exact ⟨fun h => ⟨fun c hc => absurd hc List.not_mem_nil, h⟩, fun h => h.2⟩
  | cons c cs ih =>
      rw [List.flatMap_cons, List.append_assoc, readsString_escapeCharacter_iff,
        List.forall_mem_cons, List.flatMap_cons]
      constructor
      · rintro ⟨hc, string, rfl, h⟩
        obtain ⟨hcs, rfl, hrest⟩ := ih.mp h
        exact ⟨⟨hc, hcs⟩, rfl, hrest⟩
      · rintro ⟨⟨hc, hcs⟩, rfl, hrest⟩
        exact ⟨hc, _, rfl, ih.mpr ⟨hcs, rfl, hrest⟩⟩

/-- The text of a string: its quotes, and its characters one by one. -/
theorem escapeJSONString_append (s rest : Bytes) :
    (escapeJSONString s).2 ++ rest =
      34 :: ((characters s).flatMap escapeCharacter ++ 34 :: rest) := by
  rw [escapeJSONString, List.cons_append, List.append_assoc]
  rfl

/-! ## Integers -/

/-- Decimal digits are the integer part of a numeral. -/
theorem isInt_decimal (n : ℕ) : IsInt (decimal n) := by
  refine ⟨⟨decimal_ne_nil n, digitText_decimal n⟩, ?_⟩
  unfold decimal
  by_cases hn : n = 0
  · rw [if_pos hn]
    exact Or.inl le_rfl
  · rw [if_neg hn]
    refine Or.inr ?_
    have hne : Nat.digits 10 n ≠ [] := Nat.digits_ne_nil_iff_ne_zero.mpr hn
    rw [List.head?_map, List.head?_reverse, List.getLast?_eq_getLast_of_ne_nil hne]
    intro h
    have hlast := Nat.getLast_digit_ne_zero 10 hn
    have hlt := Nat.digits_lt_base (by decide : 1 < 10) (List.getLast_mem hne)
    have hbyte := congrArg UInt8.toNat (Option.some.inj h)
    rw [toNat_utf8Byte (by omega)] at hbyte
    have : 48 + (Nat.digits 10 n).getLast hne = 48 := hbyte
    omega

/-- What an integer is written as is a numeral. -/
theorem isNumeral_intToString (i : ℤ) : IsNumeral (intToString i) := by
  have hdecimal := IsNumeral.mk (Or.inl rfl) (isInt_decimal i.natAbs) (Or.inl rfl) (Or.inl rfl)
  have hminus := IsNumeral.mk (Or.inr rfl) (isInt_decimal i.natAbs) (Or.inl rfl) (Or.inl rfl)
  simp only [List.append_nil, List.nil_append, List.singleton_append] at hdecimal hminus
  unfold intToString signedDecimal
  split_ifs
  · exact hminus
  · exact hdecimal

/-- What an integer is written as stands for the integer. -/
theorem decimalNumber_intToString (i : ℤ) : decimalNumber (intToString i) = some i := by
  unfold intToString signedDecimal
  split_ifs with h
  · rw [decimalNumber, if_pos ⟨decimal_ne_nil _, digitText_decimal _⟩, typedNumber_decimal]
    exact congrArg some (by omega)
  · obtain ⟨c, cs, hcs⟩ := List.exists_cons_of_ne_nil (decimal_ne_nil i.natAbs)
    have hdigits := digitText_decimal i.natAbs
    have hvalue := typedNumber_decimal i.natAbs
    rw [hcs] at hdigits hvalue ⊢
    have hc := hdigits c List.mem_cons_self
    unfold decimalNumber
    split
    · rename_i heq
      cases heq
      exact absurd hc (by decide)
    · rename_i heq
      cases heq
      exact absurd hc (by decide)
    · rw [if_pos ⟨List.cons_ne_nil _ _, hdigits⟩, hvalue]
      exact congrArg some (by omega)

/-- An integer of 32 bits is read back. -/
theorem numberValue_intToString {stringToDouble : Bytes → Option ℚ} {i : ℤ} (hlow : -2 ^ 31 ≤ i)
    (hhigh : i < 2 ^ 31) : numberValue stringToDouble (intToString i) = some (.integer i) := by
  have hmin : intTraits.min = -2 ^ 31 := rfl
  have hmax : intTraits.max = 2 ^ 31 - 1 := rfl
  have hread : stringToInt (intToString i) = (true, i) :=
    invoke_decimalNumber rfl (by decide) (by decide) (decimalNumber_intToString i)
      (by omega) (by omega)
  rw [numberValue, hread, if_pos rfl]

/-! ## The texts of values -/

section

variable (W : JSONWriter)

/-- What is written between brackets is blank. -/
theorem isBlank_pretty {blanks : Bytes} (h : ∀ c ∈ blanks, IsBlank c) :
    ∀ c ∈ W.pretty blanks, IsBlank c := by
  unfold JSONWriter.pretty
  split_ifs
  · exact h
  · exact fun c hc => absurd hc List.not_mem_nil

/-- The spaces of the pretty layout are blanks. -/
theorem isBlank_space : ∀ c ∈ W.pretty [32], IsBlank c :=
  isBlank_pretty W (by simp [IsBlank])

/-- The line endings of the pretty layout are blanks. -/
theorem isBlank_lineEnding : ∀ c ∈ W.pretty kPrettyPrintLineEnding, IsBlank c :=
  isBlank_pretty W (by simp [IsBlank, kPrettyPrintLineEnding])

/-- The indentation of the pretty layout is blank. -/
theorem isBlank_indentLine (depth : ℕ) : ∀ c ∈ W.indentLine depth, IsBlank c :=
  isBlank_pretty W fun c hc => by
    rw [List.eq_of_mem_replicate hc]
    exact Or.inr (Or.inr (Or.inl rfl))

/-- What the wallet stores: no number that is no integer, and nothing binary. -/
abbrev Storable (n : ℕ) (v : Value) : Prop := WellFormed (fun _ => True) (fun _ => False) n v

/-- A stored value of which the reader lets every string through. -/
abbrev Writable (n : ℕ) (v : Value) : Prop := WellFormed WritableText (fun _ => False) n v

variable {n : ℕ}

/-- A value without binary parts is not left out. -/
theorem omits_of_storable {v : Value} (h : Storable n v) : W.omits v = false := by
  cases h <;> rfl

/-- A value begins with a character that is neither blank nor a closing bracket. -/
theorem first_of_storable {v : Value} (h : Storable n v) (indent : ℕ) :
    ∃ c more, (W.buildJSONString v indent).2 = c :: more ∧ IsSolid c ∧ c ≠ 93 ∧ c ≠ 125 ∧
      c < 128 := by
  cases h with
  | null =>
      rw [JSONWriter.buildJSONString]
      exact ⟨110, _, rfl, by unfold IsSolid IsBlank; decide, by decide⟩
  | boolean b =>
      rw [JSONWriter.buildJSONString]
      cases b
      · exact ⟨102, _, rfl, by unfold IsSolid IsBlank; decide, by decide⟩
      · exact ⟨116, _, rfl, by unfold IsSolid IsBlank; decide, by decide⟩
  | @integer _ i _ _ =>
      rw [JSONWriter.buildJSONString]
      dsimp only
      unfold intToString signedDecimal
      split_ifs
      · exact ⟨45, _, rfl, by unfold IsSolid IsBlank; decide, by decide⟩
      · obtain ⟨c, cs, hcs⟩ := List.exists_cons_of_ne_nil (decimal_ne_nil i.natAbs)
        have hc := digitText_decimal i.natAbs c (by rw [hcs]; exact List.mem_cons_self)
        have hne : ∀ d : UInt8, ¬(48 ≤ d ∧ d ≤ 57) → c ≠ d := by
          rintro d hd rfl
          exact hd hc
        exact ⟨c, cs, hcs, isSolid_of_digit hc, hne 93 (by decide), hne 125 (by decide),
          UInt8.lt_of_le_of_lt hc.2 (by decide)⟩
  | double number => exact number.elim
  | string =>
      rw [JSONWriter.buildJSONString]
      exact ⟨34, _, rfl, by unfold IsSolid IsBlank; decide, by decide⟩
  | list =>
      rw [JSONWriter.buildJSONString]
      exact ⟨91, _, rfl, by unfold IsSolid IsBlank; decide, by decide⟩
  | dictionary =>
      rw [JSONWriter.buildJSONString]
      exact ⟨123, _, rfl, by unfold IsSolid IsBlank; decide, by decide⟩

/-- A value behind blanks. -/
theorem skipGap_value {v : Value} (h : Storable n v) (indent : ℕ) {blanks : Bytes}
    (hblanks : ∀ c ∈ blanks, IsBlank c) (text : Bytes) :
    skipGap (blanks ++ ((W.buildJSONString v indent).2 ++ text)) =
      (W.buildJSONString v indent).2 ++ text := by
  obtain ⟨c, more, hfirst, hc, -⟩ := first_of_storable W h indent
  rw [skipGap_blanks hblanks, hfirst, List.cons_append, skipGap_solid hc]

/-- The items behind another one. -/
theorem buildItems_cons {v : Value} (h : Storable n v) (l : List Value) (indent : ℕ) :
    (W.buildItems (v :: l) true indent).2 =
      44 :: (W.pretty [32] ++ ((W.buildJSONString v indent).2 ++
        (W.buildItems l true indent).2)) := by
  rw [JSONWriter.buildItems, if_neg (by rw [omits_of_storable W h]; decide)]
  rfl

/-- The entries behind another one. -/
theorem buildEntries_cons {v : Value} (h : Storable n v) (key : Bytes)
    (d : List (Bytes × Value)) (indent : ℕ) :
    (W.buildEntries ((key, v) :: d) true indent).2 =
      44 :: (W.pretty kPrettyPrintLineEnding ++ (W.indentLine (indent + 1) ++
        ((escapeJSONString key).2 ++ (58 :: (W.pretty [32] ++
          ((W.buildJSONString v (indent + 1)).2 ++ (W.buildEntries d true indent).2)))))) := by
  rw [JSONWriter.buildEntries, if_neg (by rw [omits_of_storable W h]; decide)]
  rfl

/-- What is written of the items of a list behind its bracket. -/
def itemsText (l : List Value) (indent : ℕ) (rest : Bytes) : Bytes :=
  (W.buildItems l true indent).2 ++ (W.pretty [32] ++ 93 :: rest)

/-- What is written of the entries of a dictionary behind its brace. -/
def entriesText (d : List (Bytes × Value)) (indent : ℕ) (rest : Bytes) : Bytes :=
  (W.buildEntries d true indent).2 ++
    (W.pretty kPrettyPrintLineEnding ++ (W.indentLine indent ++ 125 :: rest))

/-- The text of an entry, in front of what follows it. -/
def entryText (key : Bytes) (v : Value) (indent : ℕ) (tail : Bytes) : Bytes :=
  (escapeJSONString key).2 ++
    (58 :: (W.pretty [32] ++ ((W.buildJSONString v (indent + 1)).2 ++ tail)))

/-- The text of the items, from the comma in front of the first one. -/
theorem itemsText_cons {v : Value} (h : Storable n v) (l : List Value) (indent : ℕ)
    (rest : Bytes) :
    itemsText W (v :: l) indent rest = 44 :: (W.pretty [32] ++
      ((W.buildJSONString v indent).2 ++ itemsText W l indent rest)) := by
  rw [itemsText, buildItems_cons W h, itemsText]
  simp only [List.cons_append, List.append_assoc]

/-- The text of the entries, from the comma in front of the first one. -/
theorem entriesText_cons {v : Value} (h : Storable n v) (key : Bytes)
    (d : List (Bytes × Value)) (indent : ℕ) (rest : Bytes) :
    entriesText W ((key, v) :: d) indent rest = 44 :: (W.pretty kPrettyPrintLineEnding ++
      (W.indentLine (indent + 1) ++ entryText W key v indent (entriesText W d indent rest))) := by
  rw [entriesText, buildEntries_cons W h, entriesText, entryText]
  simp only [List.cons_append, List.append_assoc]

/-- The text of an empty list. -/
theorem list_text_nil (indent : ℕ) (rest : Bytes) :
    (W.buildJSONString (.list []) indent).2 ++ rest =
      91 :: (W.pretty [32] ++ itemsText W [] indent rest) := by
  rw [JSONWriter.buildJSONString, JSONWriter.buildItems, itemsText, JSONWriter.buildItems]
  simp only [List.cons_append, List.append_assoc, List.nil_append]

/-- The text of a list with a first item. -/
theorem list_text_cons {v : Value} (h : Storable n v) (l : List Value) (indent : ℕ)
    (rest : Bytes) :
    (W.buildJSONString (.list (v :: l)) indent).2 ++ rest = 91 :: (W.pretty [32] ++
      ((W.buildJSONString v indent).2 ++ itemsText W l indent rest)) := by
  rw [JSONWriter.buildJSONString, JSONWriter.buildItems,
    if_neg (by rw [omits_of_storable W h]; decide), itemsText]
  simp only [List.cons_append, List.append_assoc, List.nil_append, Bool.false_eq_true, if_false]

/-- The text of an empty dictionary. -/
theorem dictionary_text_nil (indent : ℕ) (rest : Bytes) :
    (W.buildJSONString (.dictionary []) indent).2 ++ rest =
      123 :: (W.pretty kPrettyPrintLineEnding ++ entriesText W [] indent rest) := by
  rw [JSONWriter.buildJSONString, JSONWriter.buildEntries, entriesText,
    JSONWriter.buildEntries]
  simp only [List.cons_append, List.append_assoc, List.nil_append]

/-- The text of a dictionary with a first entry. -/
theorem dictionary_text_cons {v : Value} (h : Storable n v) (key : Bytes)
    (d : List (Bytes × Value)) (indent : ℕ) (rest : Bytes) :
    (W.buildJSONString (.dictionary ((key, v) :: d)) indent).2 ++ rest =
      123 :: (W.pretty kPrettyPrintLineEnding ++ (W.indentLine (indent + 1) ++
        entryText W key v indent (entriesText W d indent rest))) := by
  rw [JSONWriter.buildJSONString, JSONWriter.buildEntries,
    if_neg (by rw [omits_of_storable W h]; decide), entriesText]
  simp only [entryText, List.cons_append, List.append_assoc, List.nil_append,
    Bool.false_eq_true, if_false]

/-! ## What separates the parts -/

/-- Behind the last item the list is closed. -/
theorem separated_itemsText_nil (indent : ℕ) (rest : Bytes) :
    Separated 93 (itemsText W [] indent rest) (93 :: rest) := by
  refine .last ?_
  rw [itemsText, JSONWriter.buildItems, List.nil_append, skipGap_blanks (isBlank_space W),
    skipGap_solid (by unfold IsSolid IsBlank; decide)]

/-- Behind an item the next one is separated. -/
theorem separated_itemsText_cons {v : Value} (h : Storable n v) (l : List Value) (indent : ℕ)
    (rest : Bytes) :
    Separated 93 (itemsText W (v :: l) indent rest)
      ((W.buildJSONString v indent).2 ++ itemsText W l indent rest) := by
  have hgap := skipGap_value W h indent (isBlank_space W) (itemsText W l indent rest)
  rw [itemsText_cons W h, ← hgap]
  refine .comma ?_ ?_
  · rw [hgap, skipGap_solid (by unfold IsSolid IsBlank; decide)]
  · obtain ⟨c, more, hfirst, -, hclose, -⟩ := first_of_storable W h indent
    rw [hgap, hfirst]
    exact fun heq => hclose (Option.some.inj heq)

/-- Behind the last entry the dictionary is closed. -/
theorem separated_entriesText_nil (indent : ℕ) (rest : Bytes) :
    Separated 125 (entriesText W [] indent rest) (125 :: rest) := by
  refine .last ?_
  rw [entriesText, JSONWriter.buildEntries, List.nil_append,
    skipGap_blanks (isBlank_lineEnding W), skipGap_blanks (isBlank_indentLine W indent),
    skipGap_solid (by unfold IsSolid IsBlank; decide)]

/-- An entry behind blanks. -/
theorem skipGap_entryText (indent : ℕ) {blanks : Bytes} (hblanks : ∀ c ∈ blanks, IsBlank c)
    (key : Bytes) (v : Value) (tail : Bytes) :
    skipGap (blanks ++ entryText W key v indent tail) = entryText W key v indent tail := by
  rw [skipGap_blanks hblanks, entryText, escapeJSONString_append,
    skipGap_solid (by unfold IsSolid IsBlank; decide)]

/-- Behind an entry the next one is separated. -/
theorem separated_entriesText_cons {v : Value} (h : Storable n v) (key : Bytes)
    (d : List (Bytes × Value)) (indent : ℕ) (rest : Bytes) :
    Separated 125 (entriesText W ((key, v) :: d) indent rest)
      (entryText W key v indent (entriesText W d indent rest)) := by
  have hgap := (skipGap_blanks (isBlank_lineEnding W) _).trans
    (skipGap_entryText W indent (isBlank_indentLine W (indent + 1)) key v
      (entriesText W d indent rest))
  rw [entriesText_cons W h, ← hgap]
  refine .comma ?_ ?_
  · rw [hgap, skipGap_solid (by unfold IsSolid IsBlank; decide)]
  · rw [hgap, entryText, escapeJSONString_append]
    exact fun heq => absurd (Option.some.inj heq) (by decide)

end

/-- A number may stand where an item is separated from what follows. -/
theorem Separated.mayFollow {close : UInt8} {text next : Bytes} (h : Separated close text next)
    (hclose : mayFollowNumber (tokenAt close) = true) :
    mayFollowNumber (tokenOf (skipGap text)) = true := by
  cases h with
  | last closes =>
      rw [closes]
      exact hclose
  | comma comma _ =>
      rw [comma]
      rfl

/-! ## Values are read back -/

variable (stringToDouble : Bytes → Option ℚ) (W : JSONWriter)

/-- What is read of the text of a value: what is left of it, if it is writable, and nothing
otherwise. -/
def ReadsBack (n : ℕ) (v : Value) : Prop :=
  ∀ depth indent rest, depth + n < kStackMaxDepth →
    mayFollowNumber (tokenOf (skipGap rest)) = true → ∀ v' rest',
      Reads stringToDouble depth ((W.buildJSONString v indent).2 ++ rest) (.value v') rest' ↔
        Writable n v ∧ v' = readBack v ∧ rest' = rest

variable {stringToDouble} {n depth : ℕ}

/-- An item is read, and then what follows it. -/
theorem reads_item_iff {indent : ℕ} {v : Value} {tail next rest : Bytes} {l : List Value}
    (hdepth : depth + n < kStackMaxDepth) (hv : Storable n v)
    (hreads : ReadsBack stringToDouble W n v) (hseparated : Separated 93 tail next) :
    Reads stringToDouble depth ((W.buildJSONString v indent).2 ++ tail) (.items l) rest ↔
      Writable n v ∧ ∃ others, l = readBack v :: others ∧
        Reads stringToDouble depth next (.items others) rest := by
  have hread := hreads depth indent tail hdepth (hseparated.mayFollow rfl)
  obtain ⟨c, more, hfirst, -, hclose, -⟩ := first_of_storable W hv indent
  constructor
  · intro h
    generalize htext : (W.buildJSONString v indent).2 ++ tail = text at h
    cases h with
    | listEnd =>
        rw [hfirst] at htext
        exact absurd (List.cons.inj htext).1 hclose
    | item first separator others =>
        rw [← htext] at first
        obtain ⟨hwritable, rfl, rfl⟩ := (hread _ _).mp first
        rw [separator.unique (by decide) hseparated] at others
        exact ⟨hwritable, _, rfl, others⟩
  · rintro ⟨hwritable, others, rfl, h⟩
    exact .item ((hread _ _).mpr ⟨hwritable, rfl, rfl⟩) hseparated h

/-- The items behind another one. -/
theorem reads_items (indent : ℕ) (rest : Bytes) {l : List Value}
    (hdepth : depth + n < kStackMaxDepth) (hl : ∀ v ∈ l, Storable n v)
    (hreads : ∀ v ∈ l, ReadsBack stringToDouble W n v) :
    ∃ next, Separated 93 (itemsText W l indent rest) next ∧ ∀ l' rest',
      Reads stringToDouble depth next (.items l') rest' ↔
        (∀ v ∈ l, Writable n v) ∧ l' = readBackItems l ∧ rest' = rest := by
  induction l with
  | nil =>
      refine ⟨93 :: rest, separated_itemsText_nil W indent rest, fun l' rest' => ?_⟩
      rw [reads_listEnd_iff, readBackItems]
      exact ⟨fun h => ⟨fun v hv => absurd hv List.not_mem_nil, h⟩, fun h => h.2⟩
  | cons v l ih =>
      obtain ⟨next, hseparated, hnext⟩ := ih (fun v hv => hl v (List.mem_cons_of_mem _ hv))
        fun v hv => hreads v (List.mem_cons_of_mem _ hv)
      have hv := hl v List.mem_cons_self
      refine ⟨_, separated_itemsText_cons W hv l indent rest, fun l' rest' => ?_⟩
      rw [reads_item_iff W hdepth hv (hreads v List.mem_cons_self) hseparated,
        List.forall_mem_cons, readBackItems]
      constructor
      · rintro ⟨hwritable, others, rfl, h⟩
        obtain ⟨hrest, rfl, hend⟩ := (hnext _ _).mp h
        exact ⟨⟨hwritable, hrest⟩, rfl, hend⟩
      · rintro ⟨⟨hwritable, hrest⟩, rfl, hend⟩
        exact ⟨hwritable, _, rfl, (hnext _ _).mpr ⟨hrest, rfl, hend⟩⟩

/-- An entry is read, and then what follows it. -/
theorem reads_entry_iff {indent : ℕ} {key : Bytes} {v : Value} {tail next rest : Bytes}
    {d : List (Bytes × Value)} (hdepth : depth + n < kStackMaxDepth) (hv : Storable n v)
    (hreads : ReadsBack stringToDouble W n v) (hseparated : Separated 125 tail next) :
    Reads stringToDouble depth (entryText W key v indent tail) (.entries d) rest ↔
      (WritableText key ∧ Writable n v) ∧ ∃ others, d = (keptText key, readBack v) :: others ∧
        Reads stringToDouble depth next (.entries others) rest := by
  have hread := hreads depth (indent + 1) tail hdepth (hseparated.mayFollow rfl)
  have hgap := skipGap_value W hv (indent + 1) (isBlank_space W) tail
  have hcolon : ∀ text, skipGap (58 :: text) = 58 :: text := fun text =>
    skipGap_solid (by unfold IsSolid IsBlank; decide) text
  rw [entryText, escapeJSONString_append]
  constructor
  · intro h
    generalize htext : 34 :: ((characters key).flatMap escapeCharacter ++ 34 :: 58 ::
      (W.pretty [32] ++ ((W.buildJSONString v (indent + 1)).2 ++ tail))) = text at h
    cases h with
    | dictionaryEnd => cases htext
    | entry name colon first separator others =>
        cases htext
        obtain ⟨hkey, rfl, rfl⟩ := readsString_escapeAll_iff.mp name
        rw [hcolon] at colon
        obtain ⟨-, rfl⟩ := List.cons.inj colon
        rw [hgap] at first
        obtain ⟨hwritable, rfl, rfl⟩ := (hread _ _).mp first
        rw [separator.unique (by decide) hseparated] at others
        exact ⟨⟨hkey, hwritable⟩, _, rfl, others⟩
  · rintro ⟨⟨hkey, hwritable⟩, others, rfl, h⟩
    refine .entry (readsString_escapeAll_iff.mpr ⟨hkey, rfl, rfl⟩) (hcolon _) ?_ hseparated h
    rw [hgap]
    exact (hread _ _).mpr ⟨hwritable, rfl, rfl⟩

/-- The entries behind another one. -/
theorem reads_entries (indent : ℕ) (rest : Bytes) {d : List (Bytes × Value)}
    (hdepth : depth + n < kStackMaxDepth) (hd : ∀ e ∈ d, Storable n e.2)
    (hreads : ∀ e ∈ d, ReadsBack stringToDouble W n e.2) :
    ∃ next, Separated 125 (entriesText W d indent rest) next ∧ ∀ d' rest',
      Reads stringToDouble depth next (.entries d') rest' ↔
        (∀ e ∈ d, WritableText e.1 ∧ Writable n e.2) ∧ d' = readBackEntries d ∧ rest' = rest := by
  induction d with
  | nil =>
      refine ⟨125 :: rest, separated_entriesText_nil W indent rest, fun d' rest' => ?_⟩
      rw [reads_dictionaryEnd_iff, readBackEntries]
      exact ⟨fun h => ⟨fun e he => absurd he List.not_mem_nil, h⟩, fun h => h.2⟩
  | cons e d ih =>
      obtain ⟨key, v⟩ := e
      obtain ⟨next, hseparated, hnext⟩ := ih (fun e he => hd e (List.mem_cons_of_mem _ he))
        fun e he => hreads e (List.mem_cons_of_mem _ he)
      have hv := hd _ List.mem_cons_self
      refine ⟨_, separated_entriesText_cons W hv key d indent rest, fun d' rest' => ?_⟩
      rw [reads_entry_iff W hdepth hv (hreads _ List.mem_cons_self) hseparated,
        List.forall_mem_cons, readBackEntries]
      constructor
      · rintro ⟨hwritable, others, rfl, h⟩
        obtain ⟨hrest, rfl, hend⟩ := (hnext _ _).mp h
        exact ⟨⟨hwritable, hrest⟩, rfl, hend⟩
      · rintro ⟨⟨hwritable, hrest⟩, rfl, hend⟩
        exact ⟨hwritable, _, rfl, (hnext _ _).mpr ⟨hrest, rfl, hend⟩⟩

/-- A list is writable if its items are. -/
theorem writable_list_iff {l : List Value} :
    Writable (n + 1) (.list l) ↔ ∀ v ∈ l, Writable n v := by
  constructor
  · intro h
    cases h with
    | list items => exact items
  · exact .list

/-- A dictionary is writable if its keys and its values are. -/
theorem writable_dictionary_iff {d : Dictionary} (hsorted : d.Sorted) :
    Writable (n + 1) (.dictionary d) ↔ ∀ e ∈ d, WritableText e.1 ∧ Writable n e.2 := by
  constructor
  · intro h
    cases h with
    | dictionary _ keys entries => exact fun e he => ⟨keys e he, entries e he⟩
  · exact fun h => .dictionary hsorted (fun e he => (h e he).1) fun e he => (h e he).2

/-- A text that stands for a value stands for no other. -/
theorem reads_iff_of_reads {text rest rest' : Bytes} {v v' : Value}
    (h : Reads stringToDouble depth text (.value v) rest) :
    Reads stringToDouble depth text (.value v') rest' ↔ v' = v ∧ rest' = rest := by
  constructor
  · intro h'
    exact h'.unique h
  · rintro ⟨rfl, rfl⟩
    exact h

/-- A list is read back if its items are. -/
theorem readsBack_list {l : List Value} (hl : ∀ v ∈ l, Storable n v)
    (hreads : ∀ v ∈ l, ReadsBack stringToDouble W n v) :
    ReadsBack stringToDouble W (n + 1) (.list l) := by
  intro depth indent rest hdepth _ v' rest'
  have hitems : ∀ l' rest', Reads stringToDouble (depth + 1)
      (skipGap (((W.buildJSONString (.list l) indent).2 ++ rest).drop 1)) (.items l') rest' ↔
        (∀ v ∈ l, Writable n v) ∧ l' = readBackItems l ∧ rest' = rest := by
    intro l' rest'
    cases l with
    | nil =>
        have hclose : skipGap (W.pretty [32] ++ itemsText W [] indent rest) = 93 :: rest := by
          rw [skipGap_blanks (isBlank_space W), itemsText, JSONWriter.buildItems,
            List.nil_append, skipGap_blanks (isBlank_space W),
            skipGap_solid (by unfold IsSolid IsBlank; decide)]
        rw [list_text_nil, List.drop_one, List.tail_cons, hclose, reads_listEnd_iff,
          readBackItems]
        exact ⟨fun h => ⟨fun v hv => absurd hv List.not_mem_nil, h⟩, fun h => h.2⟩
    | cons v l =>
        obtain ⟨next, hseparated, hnext⟩ := reads_items W indent rest
          (show depth + 1 + n < kStackMaxDepth by omega)
          (fun v hv => hl v (List.mem_cons_of_mem _ hv))
          fun v hv => hreads v (List.mem_cons_of_mem _ hv)
        have hv := hl v List.mem_cons_self
        rw [list_text_cons W hv, List.drop_one, List.tail_cons,
          skipGap_value W hv indent (isBlank_space W),
          reads_item_iff W (by omega) hv (hreads v List.mem_cons_self) hseparated,
          List.forall_mem_cons, readBackItems]
        constructor
        · rintro ⟨hwritable, others, rfl, h⟩
          obtain ⟨hrest, rfl, hend⟩ := (hnext _ _).mp h
          exact ⟨⟨hwritable, hrest⟩, rfl, hend⟩
        · rintro ⟨⟨hwritable, hrest⟩, rfl, hend⟩
          exact ⟨hwritable, _, rfl, (hnext _ _).mpr ⟨hrest, rfl, hend⟩⟩
  obtain ⟨text, htext⟩ : ∃ text, (W.buildJSONString (.list l) indent).2 ++ rest = 91 :: text := by
    rw [JSONWriter.buildJSONString]
    exact ⟨_, rfl⟩
  rw [htext, List.drop_one, List.tail_cons] at hitems
  rw [htext, reads_bracket_iff, writable_list_iff, readBack]
  constructor
  · rintro ⟨-, l', rfl, h⟩
    obtain ⟨hwritable, rfl, hrest⟩ := (hitems _ _).mp h
    exact ⟨hwritable, rfl, hrest⟩
  · rintro ⟨hwritable, rfl, hrest⟩
    exact ⟨by omega, _, rfl, (hitems _ _).mpr ⟨hwritable, rfl, hrest⟩⟩

/-- A dictionary is read back if its values are. -/
theorem readsBack_dictionary {d : Dictionary} (hsorted : d.Sorted)
    (hd : ∀ e ∈ d, Storable n e.2) (hreads : ∀ e ∈ d, ReadsBack stringToDouble W n e.2) :
    ReadsBack stringToDouble W (n + 1) (.dictionary d) := by
  intro depth indent rest hdepth _ v' rest'
  have hentries : ∀ d' rest', Reads stringToDouble (depth + 1)
      (skipGap (((W.buildJSONString (.dictionary d) indent).2 ++ rest).drop 1))
        (.entries d') rest' ↔
        (∀ e ∈ d, WritableText e.1 ∧ Writable n e.2) ∧ d' = readBackEntries d ∧
          rest' = rest := by
    intro d' rest'
    cases d with
    | nil =>
        have hclose : skipGap (W.pretty kPrettyPrintLineEnding ++ entriesText W [] indent rest) =
            125 :: rest := by
          rw [skipGap_blanks (isBlank_lineEnding W), entriesText, JSONWriter.buildEntries,
            List.nil_append, skipGap_blanks (isBlank_lineEnding W),
            skipGap_blanks (isBlank_indentLine W indent),
            skipGap_solid (by unfold IsSolid IsBlank; decide)]
        rw [dictionary_text_nil, List.drop_one, List.tail_cons, hclose, reads_dictionaryEnd_iff,
          readBackEntries]
        exact ⟨fun h => ⟨fun e he => absurd he List.not_mem_nil, h⟩, fun h => h.2⟩
    | cons e d =>
        obtain ⟨key, v⟩ := e
        obtain ⟨next, hseparated, hnext⟩ := reads_entries W indent rest
          (show depth + 1 + n < kStackMaxDepth by omega)
          (fun e he => hd e (List.mem_cons_of_mem _ he))
          fun e he => hreads e (List.mem_cons_of_mem _ he)
        have hv := hd _ List.mem_cons_self
        have hgap := (skipGap_blanks (isBlank_lineEnding W) _).trans
          (skipGap_entryText W indent (isBlank_indentLine W (indent + 1)) key v
            (entriesText W d indent rest))
        rw [dictionary_text_cons W hv, List.drop_one, List.tail_cons, hgap,
          reads_entry_iff W (by omega) hv (hreads _ List.mem_cons_self) hseparated,
          List.forall_mem_cons, readBackEntries]
        constructor
        · rintro ⟨hwritable, others, rfl, h⟩
          obtain ⟨hrest, rfl, hend⟩ := (hnext _ _).mp h
          exact ⟨⟨hwritable, hrest⟩, rfl, hend⟩
        · rintro ⟨⟨hwritable, hrest⟩, rfl, hend⟩
          exact ⟨hwritable, _, rfl, (hnext _ _).mpr ⟨hrest, rfl, hend⟩⟩
  obtain ⟨text, htext⟩ :
      ∃ text, (W.buildJSONString (.dictionary d) indent).2 ++ rest = 123 :: text := by
    rw [JSONWriter.buildJSONString]
    exact ⟨_, rfl⟩
  rw [htext, List.drop_one, List.tail_cons] at hentries
  rw [htext, reads_brace_iff, writable_dictionary_iff hsorted, readBack]
  constructor
  · rintro ⟨-, d', rfl, h⟩
    obtain ⟨hwritable, rfl, hrest⟩ := (hentries _ _).mp h
    exact ⟨hwritable, rfl, hrest⟩
  · rintro ⟨hwritable, rfl, hrest⟩
    exact ⟨by omega, _, rfl, (hentries _ _).mpr ⟨hwritable, rfl, hrest⟩⟩

/-- **A stored value is read back as what is left of it, if it is writable.** -/
theorem readsBack_of_storable {v : Value} (h : Storable n v) : ReadsBack stringToDouble W n v := by
  induction h with
  | null =>
      intro depth indent rest _ _ v' rest'
      have hread : Reads stringToDouble depth ((W.buildJSONString .null indent).2 ++ rest)
          (.value .null) rest := by
        rw [JSONWriter.buildJSONString]
        exact .literal (by simp [literals])
      rw [reads_iff_of_reads hread]
      exact ⟨fun h => ⟨.null, h⟩, fun h => h.2⟩
  | boolean b =>
      intro depth indent rest _ _ v' rest'
      have hread : Reads stringToDouble depth ((W.buildJSONString (.boolean b) indent).2 ++ rest)
          (.value (.boolean b)) rest := by
        rw [JSONWriter.buildJSONString]
        cases b <;> exact .literal (by simp [literals])
      rw [reads_iff_of_reads hread]
      exact ⟨fun h => ⟨.boolean b, h⟩, fun h => h.2⟩
  | @integer n i low high =>
      intro depth indent rest _ hfollow v' rest'
      have hread : Reads stringToDouble depth ((W.buildJSONString (.integer i) indent).2 ++ rest)
          (.value (.integer i)) rest := by
        rw [JSONWriter.buildJSONString]
        exact .number (isNumeral_intToString i) hfollow (numberValue_intToString low high)
      rw [reads_iff_of_reads hread]
      exact ⟨fun h => ⟨.integer low high, h⟩, fun h => h.2⟩
  | double number => exact number.elim
  | @string n s _ =>
      intro depth indent rest _ _ v' rest'
      rw [JSONWriter.buildJSONString]
      dsimp only
      rw [escapeJSONString_append, reads_quote_iff, readBack]
      constructor
      · rintro ⟨string, rfl, h⟩
        obtain ⟨hwritable, rfl, hrest⟩ := readsString_escapeAll_iff.mp h
        exact ⟨.string hwritable, rfl, hrest⟩
      · rintro ⟨hwritable, rfl, hrest⟩
        cases hwritable with
        | string characters =>
            exact ⟨_, rfl, readsString_escapeAll_iff.mpr ⟨characters, rfl, hrest⟩⟩
  | list items ih => exact readsBack_list W items ih
  | dictionary sorted _ entries ih => exact readsBack_dictionary W sorted entries ih

end TronWallet.Analysis
