import TronWallet.Analysis.JsonNumbers

/-!
# The language the parser accepts

`Reads` says which texts stand for which values, without a parser: a value begins at its
first character, the items of a list and the entries of a dictionary begin behind the opening
bracket, and each reading leaves a text behind it.  Gaps may stand between the words, a comma
stands between two items and not behind the last one, and brackets are nested less than
`kStackMaxDepth` deep.

Every reading takes at least one character (`Reads.shorter`).
-/

set_option autoImplicit false

namespace TronWallet.Analysis

open TronWallet.Lib TronWallet.Model JSONParser

/-! ## The language -/

/-- What a part of a text stands for: a value, or the rest of a list or of a dictionary up to
its closing bracket. -/
inductive Phrase where
  | value (v : Value)
  | items (l : List Value)
  | entries (d : List (Bytes × Value))

/-- The words with a meaning. -/
def literals : List (Bytes × Value) :=
  [(asciiText "true", .boolean true), (asciiText "false", .boolean false),
    (asciiText "null", .null)]

/-- The entries of a dictionary, set one after the other. -/
def dictionaryOf (entries : List (Bytes × Value)) (dict : Dictionary) : Dictionary :=
  entries.foldl (fun dict e => dict.setWithoutPathExpansion e.1 e.2) dict

/-- Behind an item comes the closing bracket, or a comma and something that is not the closing
bracket. -/
inductive Separated (close : UInt8) : Bytes → Bytes → Prop
  | last {text more : Bytes} (closes : skipGap text = close :: more) :
      Separated close text (close :: more)
  | comma {text more : Bytes} (comma : skipGap text = 44 :: more)
      (trailing : (skipGap more).head? ≠ some close) : Separated close text (skipGap more)

/-- What stands for what, at a depth of brackets. -/
inductive Reads (stringToDouble : Bytes → Option ℚ) : ℕ → Bytes → Phrase → Bytes → Prop
  | string {depth : ℕ} {text string rest : Bytes} (characters : ReadsString text string rest) :
      Reads stringToDouble depth (34 :: text) (.value (.string string)) rest
  | number {depth : ℕ} {numeral rest : Bytes} {v : Value} (numeral_ : IsNumeral numeral)
      (follow : mayFollowNumber (tokenOf (skipGap rest)) = true)
      (value : numberValue stringToDouble numeral = some v) :
      Reads stringToDouble depth (numeral ++ rest) (.value v) rest
  | literal {depth : ℕ} {word rest : Bytes} {v : Value} (word_ : (word, v) ∈ literals) :
      Reads stringToDouble depth (word ++ rest) (.value v) rest
  | list {depth : ℕ} {text rest : Bytes} {l : List Value} (nesting : depth + 1 < kStackMaxDepth)
      (body : Reads stringToDouble (depth + 1) (skipGap text) (.items l) rest) :
      Reads stringToDouble depth (91 :: text) (.value (.list l)) rest
  | dictionary {depth : ℕ} {text rest : Bytes} {d : List (Bytes × Value)}
      (nesting : depth + 1 < kStackMaxDepth)
      (body : Reads stringToDouble (depth + 1) (skipGap text) (.entries d) rest) :
      Reads stringToDouble depth (123 :: text) (.value (.dictionary (dictionaryOf d []))) rest
  | listEnd {depth : ℕ} {rest : Bytes} : Reads stringToDouble depth (93 :: rest) (.items []) rest
  | item {depth : ℕ} {text behind next rest : Bytes} {v : Value} {l : List Value}
      (first : Reads stringToDouble depth text (.value v) behind)
      (separator : Separated 93 behind next)
      (others : Reads stringToDouble depth next (.items l) rest) :
      Reads stringToDouble depth text (.items (v :: l)) rest
  | dictionaryEnd {depth : ℕ} {rest : Bytes} :
      Reads stringToDouble depth (125 :: rest) (.entries []) rest
  | entry {depth : ℕ} {text key behindKey valueText behind next rest : Bytes} {v : Value}
      {d : List (Bytes × Value)} (name : ReadsString text key behindKey)
      (colon : skipGap behindKey = 58 :: valueText)
      (first : Reads stringToDouble depth (skipGap valueText) (.value v) behind)
      (separator : Separated 125 behind next)
      (others : Reads stringToDouble depth next (.entries d) rest) :
      Reads stringToDouble depth (34 :: text) (.entries ((key, v) :: d)) rest

/-- A text without its byte order mark. -/
def withoutMark (input : Bytes) : Bytes :=
  if input.take 3 = [0xEF, 0xBB, 0xBF] then input.drop 3 else input

/-- A whole text stands for a value. -/
def Accepted (stringToDouble : Bytes → Option ℚ) (input : Bytes) (v : Value) : Prop :=
  ∃ rest, Reads stringToDouble 0 (skipGap (withoutMark input)) (.value v) rest ∧
    skipGap rest = []

variable {stringToDouble : Bytes → Option ℚ}

/-! ## Readings go on -/

/-- A string takes at least its quote. -/
theorem ReadsString.shorter {text string rest : Bytes} (h : ReadsString text string rest) :
    rest.length < text.length := by
  induction h with
  | close rest => exact Nat.lt_succ_self _
  | @character c text string rest _ _ _ _ ih =>
      rw [List.length_append]
      omega
  | @escape text appended steps string rest _ _ ih =>
      rw [List.length_drop] at ih
      rw [List.length_cons]
      omega

/-- What is behind a string is a suffix of the text. -/
theorem ReadsString.suffix {text string rest : Bytes} (h : ReadsString text string rest) :
    rest <:+ text := by
  induction h with
  | close rest => exact List.suffix_cons _ _
  | character _ _ _ _ ih => exact ih.trans (List.suffix_append _ _)
  | escape _ _ ih => exact (ih.trans (List.drop_suffix _ _)).trans (List.suffix_cons _ _)

/-- What is behind a separator is a suffix of the text. -/
theorem Separated.suffix {close : UInt8} {text next : Bytes} (h : Separated close text next) :
    next <:+ text := by
  cases h with
  | last closes => exact closes ▸ skipGap_suffix text
  | @comma more comma _ =>
      have hmore : more <:+ text := (List.suffix_cons 44 more).trans (comma ▸ skipGap_suffix text)
      exact (skipGap_suffix more).trans hmore

/-- A separator does not make a text longer. -/
theorem Separated.length_le {close : UInt8} {text next : Bytes} (h : Separated close text next) :
    next.length ≤ text.length := h.suffix.length_le

/-- A numeral has a digit. -/
theorem numeral_ne_nil {numeral : Bytes} (h : IsNumeral numeral) : numeral ≠ [] := by
  obtain ⟨init, c, rfl, -⟩ := exists_last_digit h
  simp

/-- A reading takes at least one character. -/
theorem Reads.shorter {depth : ℕ} {text rest : Bytes} {phrase : Phrase}
    (h : Reads stringToDouble depth text phrase rest) : rest.length < text.length := by
  induction h with
  | string characters =>
      have hshort := characters.shorter
      rw [List.length_cons]
      omega
  | @number depth numeral rest v hnumeral _ _ =>
      have hpos := List.length_pos_iff.mpr (numeral_ne_nil hnumeral)
      rw [List.length_append]
      omega
  | @literal depth word rest v hword =>
      have hpos : 0 < word.length := by
        simp only [literals, List.mem_cons, List.not_mem_nil, or_false, Prod.mk.injEq] at hword
        rcases hword with ⟨rfl, -⟩ | ⟨rfl, -⟩ | ⟨rfl, -⟩ <;> decide
      rw [List.length_append]
      omega
  | @list depth text rest l _ _ ih =>
      have hgap := skipGap_length_le text
      rw [List.length_cons]
      omega
  | @dictionary depth text rest d _ _ ih =>
      have hgap := skipGap_length_le text
      rw [List.length_cons]
      omega
  | listEnd => exact Nat.lt_succ_self _
  | item _ separator _ ih ih' =>
      have hlength := separator.length_le
      omega
  | dictionaryEnd => exact Nat.lt_succ_self _
  | @entry depth text key behindKey valueText behind next rest v d name colon _ separator _ ih
      ih' =>
      have hlength := separator.length_le
      have hname := name.shorter
      have hgap := skipGap_length_le behindKey
      have hgap' := skipGap_length_le valueText
      rw [colon, List.length_cons] at hgap
      rw [List.length_cons]
      omega

/-- What a reading leaves is a suffix of the text. -/
theorem Reads.suffix {depth : ℕ} {text rest : Bytes} {phrase : Phrase}
    (h : Reads stringToDouble depth text phrase rest) : rest <:+ text := by
  induction h with
  | string characters => exact characters.suffix.trans (List.suffix_cons _ _)
  | number => exact List.suffix_append _ _
  | literal => exact List.suffix_append _ _
  | list _ _ ih => exact (ih.trans (skipGap_suffix _)).trans (List.suffix_cons _ _)
  | dictionary _ _ ih => exact (ih.trans (skipGap_suffix _)).trans (List.suffix_cons _ _)
  | listEnd => exact List.suffix_cons _ _
  | item _ separator _ ih ih' => exact (ih'.trans separator.suffix).trans ih
  | dictionaryEnd => exact List.suffix_cons _ _
  | entry name colon _ separator _ ih ih' =>
      have hvalue := (List.suffix_cons _ _).trans (colon ▸ skipGap_suffix _)
      have hbehind := ((ih'.trans separator.suffix).trans ih).trans (skipGap_suffix _)
      exact ((hbehind.trans hvalue).trans name.suffix).trans (List.suffix_cons _ _)

/-! ## Tokens -/

/-- The character of a token that has only one. -/
def tokenChar : Token → Option UInt8
  | .objectBegin => some 123
  | .objectEnd => some 125
  | .arrayBegin => some 91
  | .arrayEnd => some 93
  | .string => some 34
  | .boolTrue => some 116
  | .boolFalse => some 102
  | .null => some 110
  | .listSeparator => some 44
  | .objectPairSeparator => some 58
  | _ => none

/-- The bytes one by one: a token is at its character, and the end is at none. -/
theorem tokenAt_ofNat : ∀ n < 256, tokenAt (UInt8.ofNat n) ≠ .endOfInput ∧
    (tokenChar (tokenAt (UInt8.ofNat n)) = none ∨
      tokenChar (tokenAt (UInt8.ofNat n)) = some (UInt8.ofNat n)) := by
  decide +kernel

/-- A character is not the end of the input. -/
theorem tokenAt_ne_endOfInput (c : UInt8) : tokenAt c ≠ .endOfInput := by
  have h := (tokenAt_ofNat c.toNat c.toNat_lt).1
  rwa [UInt8.ofNat_toNat] at h

/-- A token that is a single character is seen at that character only. -/
theorem eq_of_tokenAt {c d : UInt8} (h : tokenChar (tokenAt c) = some d) : c = d := by
  have hc := (tokenAt_ofNat c.toNat c.toNat_lt).2
  rw [UInt8.ofNat_toNat, h] at hc
  rcases hc with hc | hc
  · cases hc
  · exact (Option.some.inj hc).symm

/-- A text whose token is a single character begins with it. -/
theorem cons_of_tokenOf {text : Bytes} {d : UInt8} (h : tokenChar (tokenOf text) = some d) :
    ∃ more, text = d :: more := by
  cases text with
  | nil => cases h
  | cons c more => exact ⟨more, by rw [eq_of_tokenAt h]⟩

/-- The end of the input is seen at the empty text only. -/
theorem tokenOf_eq_endOfInput {text : Bytes} : tokenOf text = .endOfInput ↔ text = [] := by
  cases text with
  | nil => exact ⟨fun _ => rfl, fun _ => rfl⟩
  | cons c more => exact ⟨fun h => absurd h (tokenAt_ne_endOfInput c), fun h => nomatch h⟩

/-- A numeral is seen as a number. -/
theorem tokenOf_numeral {numeral : Bytes} (h : IsNumeral numeral) (rest : Bytes) :
    tokenOf (numeral ++ rest) = .number := by
  have hfirst : ∀ c more, (48 ≤ c ∧ c ≤ 57 ∨ c = 45) → tokenOf (c :: more) = .number := by
    intro c more hc
    have hne : ∀ d : UInt8, ¬(48 ≤ d ∧ d ≤ 57 ∨ d = 45) → c ≠ d := by
      rintro d hd rfl
      exact hd hc
    rw [tokenOf, tokenAt, if_neg (hne 123 (by decide)), if_neg (hne 125 (by decide)),
      if_neg (hne 91 (by decide)), if_neg (hne 93 (by decide)), if_neg (hne 34 (by decide)),
      if_pos hc]
  obtain @⟨minus, int, fraction, exponent, hminus, hint, -, -⟩ := h
  rcases hminus with rfl | rfl
  · obtain ⟨c, cs, rfl⟩ := List.exists_cons_of_ne_nil hint.1.1
    exact hfirst c _ (Or.inl (hint.1.2 c List.mem_cons_self))
  · exact hfirst 45 _ (Or.inr rfl)

end TronWallet.Analysis
