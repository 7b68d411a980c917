import TronWallet.Analysis.JsonErrors
import TronWallet.Analysis.JsonRoundTrip
import TronWallet.Model.TransactionManager

/-!
# JSON texts that are read and written

The wallet keeps cold addresses, transactions, votes and its settings as JSON texts, which
its own reader and writer take apart and put together.

The reader is a function of the bytes alone: it accepts the language `Accepted`, gives back
the one value a text stands for, and turns down every other text.  It reports an error then,
unless it has met a number that is no `int` and that has no finite value, on which it gives up
without a word (`parse_eq_or_reports`).  A value is read back as it was written if and only if
its strings survive (`deserialize_write_eq_some_iff`); a single noncharacter in one string
makes the whole text unreadable (`deserialize_write`).
-/

set_option autoImplicit false

namespace TronWallet.Theorems

open TronWallet.Lib TronWallet.Model TronWallet.Analysis

/-! ## The files of the wallet -/

/-- The formats with the wallet's own writer and reader of JSON. -/
def walletFormats (F : FileFormats) (doubleToString : ℚ → Bytes)
    (stringToDouble : Bytes → Option ℚ) : FileFormats :=
  { F with
    jsonWrite := fun v => ((⟨false, true, doubleToString⟩ : JSONWriter).write v).2
    jsonRead := deserialize stringToDouble }

/-- A file that has been written is read with the wallet's own reader. -/
theorem deserializeFile_walletFormats {F : FileFormats} {doubleToString : ℚ → Bytes}
    {stringToDouble : Bytes → Option ℚ} {files : Files} {path : Bytes} {v : Value}
    (h : files.lookup path =
      some ((walletFormats F doubleToString stringToDouble).jsonWrite v)) :
    deserializeFile (walletFormats F doubleToString stringToDouble) files path =
      deserialize stringToDouble ((⟨false, true, doubleToString⟩ : JSONWriter).write v).2 := by
  unfold deserializeFile
  rw [h]
  rfl

variable (stringToDouble : Bytes → Option ℚ)

/-- **Every text is read as the one value it stands for, or turned down**, when it stands for
none: with an error code in one of its lines, or without any at a number in it that is no `int`
and has no finite value. -/
theorem parse_eq_or_reports (input : Bytes) :
    (∃ v, JSONParser.parse stringToDouble input = .ok v ∧
      ∀ v', Accepted stringToDouble input v' ↔ v' = v) ∨
    ((∀ v, ¬Accepted stringToDouble input v) ∧
      ((∃ code line column,
          JSONParser.parse stringToDouble input = .error (.reported code line column) ∧
            code ≠ .noError ∧ 1 ≤ line) ∨
        (JSONParser.parse stringToDouble input = .error (.reported .noError 0 0) ∧
          ∃ numeral, numeral <:+: input ∧ IsNumeral numeral ∧
            numberValue stringToDouble numeral = none))) := by
  have hrounds : JSONParser.parse stringToDouble input ≠ .error .outOfRounds :=
    parse_ne_outOfRounds input
  cases hparse : JSONParser.parse stringToDouble input with
  | ok v =>
      have haccepted := parse_eq_ok_iff.mp hparse
      refine Or.inl ⟨v, rfl, fun v' => ⟨fun h => h.unique haccepted, ?_⟩⟩
      rintro rfl
      exact haccepted
  | error e =>
      refine Or.inr ⟨fun v haccepted => ?_, ?_⟩
      · rw [parse_eq_ok_iff.mpr haccepted] at hparse
        cases hparse
      · have hfails := turnsDown_of_parse hparse
        cases e with
        | reported code line column =>
            rcases hfails with ⟨hcode, hline⟩ | ⟨rfl, rfl, rfl, hunreadable⟩
            · exact Or.inl ⟨code, line, column, rfl, hcode, hline⟩
            · exact Or.inr ⟨rfl, hunreadable⟩
        | outOfRounds => exact absurd hparse hrounds

/-- On `1e999`, which has no finite value, nothing is reported. -/
example : JSONParser.parse (fun _ => none) [49, 101, 57, 57, 57] =
    .error (.reported .noError 0 0) := rfl

/-- **What is read is well formed, whatever the text is**: its strings are UTF-8 without
noncharacters, its integers fit into 32 bits, its other numbers stand in the text, its
dictionaries are in order and its brackets are nested less than a hundred deep. -/
theorem deserialize_wellFormed {text : Bytes} {v : Value}
    (h : deserialize stringToDouble text = some v) :
    WellFormed ValidText (NumberOf stringToDouble text) (kStackMaxDepth - 1) v := by
  obtain ⟨rest, hread, -⟩ := (deserialize_eq_some_iff stringToDouble).mp h
  have hpart : skipGap (withoutMark text) <:+: text :=
    ((skipGap_suffix _).trans (withoutMark_suffix text)).isInfix
  exact hread.wellFormed hpart

/-- The value of `1.5`. -/
def readHalves (numeral : Bytes) : Option ℚ := if numeral = [49, 46, 53] then some (3 / 2) else none

/-- The text `{"c":1.5,"a":"b"}`. -/
def someText : Bytes :=
  [123, 34, 99, 34, 58, 49, 46, 53, 44, 34, 97, 34, 58, 34, 98, 34, 125]

/-- A dictionary with a string and with a double, which is the value of the numeral in its text.
-/
theorem deserialize_wellFormed_dictionary :
    WellFormed ValidText (NumberOf readHalves someText) (kStackMaxDepth - 1)
      (.dictionary [([97], .string [98]), ([99], .double (3 / 2))]) :=
  deserialize_wellFormed readHalves (rfl : deserialize readHalves someText =
    some (.dictionary [([97], .string [98]), ([99], .double (3 / 2))]))

variable (W : JSONWriter)

/-- **A value is read back as it was written if and only if its strings survive**: they are
UTF-8 of characters the reader lets through, and hold no NUL. Indentation makes no
difference. -/
theorem deserialize_write_eq_some_iff {v : Value} (h : Storable (kStackMaxDepth - 1) v) :
    deserialize stringToDouble (W.write v).2 = some v ↔ Survives (kStackMaxDepth - 1) v := by
  rw [deserialize_write_iff W stringToDouble h]
  constructor
  · rintro ⟨hwritable, hv⟩
    rw [hv]
    exact survives_readBack hwritable
  · intro hsurvives
    exact ⟨hsurvives.imp (fun s hs => writableText_of_validText hs.1) fun q hq => hq,
      (readBack_of_survives hsurvives).symm⟩

/-- A dictionary with an empty string is read back. -/
theorem deserialize_write_eq_some_iff_entry :
    deserialize (fun _ => none)
        ((⟨false, true, fun _ => []⟩ : JSONWriter).write (.dictionary [([97], .string [])])).2 =
      some (.dictionary [([97], .string [])]) ↔
    Survives (kStackMaxDepth - 1) (.dictionary [([97], .string [])]) :=
  deserialize_write_eq_some_iff _ _ (.dictionary (List.pairwise_singleton _ _)
    (fun _ _ => trivial) fun e he => by rw [List.mem_singleton.mp he]; exact .string trivial)

/-- **What becomes of a stored value.** It is always written; it is read back as what is left
of it, or not at all when the reader stops at one of its strings. -/
theorem deserialize_write {v : Value} (h : Storable (kStackMaxDepth - 1) v) :
    (W.write v).1 = true ∧
      (Writable (kStackMaxDepth - 1) v →
        deserialize stringToDouble (W.write v).2 = some (readBack v)) ∧
      (¬Writable (kStackMaxDepth - 1) v → deserialize stringToDouble (W.write v).2 = none) := by
  refine ⟨buildJSONString_ok W h 0, fun hwritable => ?_, fun hnot => ?_⟩
  · exact (deserialize_write_iff W stringToDouble h).mpr ⟨hwritable, rfl⟩
  · rw [Option.eq_none_iff_forall_ne_some]
    exact fun v' hv' => hnot ((deserialize_write_iff W stringToDouble h).mp hv').1

/-- A noncharacter makes the whole text unreadable. -/
theorem deserialize_write_noncharacter :
    let v : Value := .list [.string [0xEF, 0xBF, 0xBF], .null]
    ((⟨false, false, fun _ => []⟩ : JSONWriter).write v).1 = true ∧
      (Writable (kStackMaxDepth - 1) v → deserialize (fun _ => none)
        ((⟨false, false, fun _ => []⟩ : JSONWriter).write v).2 = some (readBack v)) ∧
      (¬Writable (kStackMaxDepth - 1) v → deserialize (fun _ => none)
        ((⟨false, false, fun _ => []⟩ : JSONWriter).write v).2 = none) :=
  deserialize_write _ _ (.list (List.forall_mem_cons.mpr
    ⟨.string trivial, fun v hv => by rw [List.mem_singleton.mp hv]; exact .null⟩))

end TronWallet.Theorems
