import TronWallet.Analysis.JsonParsing

/-!
# How a text is turned down

Every failure of the parser is reported with a code and in a line of the text, except one: a
number that is no `int` and for which `strtod` has no finite value ends the reading without
an error code.  `TurnsDown` says which failures there are, and `Goes` what becomes of the
parser while it is in the text; each function that consumes a part of the text keeps it
(`goes`), so it holds of every whole text (`turnsDown_of_parse`).
-/

set_option autoImplicit false

namespace TronWallet.Analysis

open TronWallet.Lib TronWallet.Model JSONParser

variable {stringToDouble : Bytes → Option ℚ} {text : Bytes} {s t : JSONParser}

/-! ## Failures -/

/-- The text has a number that is no `int` and that `strtod` cannot read. -/
def HasUnreadable (stringToDouble : Bytes → Option ℚ) (text : Bytes) : Prop :=
  ∃ numeral, numeral <:+: text ∧ IsNumeral numeral ∧ numberValue stringToDouble numeral = none

/-- How a text may be turned down: with an error code in one of its lines, or without one at a
number that cannot be read. -/
def TurnsDown (stringToDouble : Bytes → Option ℚ) (text : Bytes) : ParseFailure → Prop
  | .reported code line column => (code ≠ .noError ∧ 1 ≤ line) ∨
      (code = .noError ∧ line = 0 ∧ column = 0 ∧ HasUnreadable stringToDouble text)
  | .outOfRounds => True

/-- The parser is in the text, and in one of its lines. -/
structure Inside (text : Bytes) (s : JSONParser) : Prop where
  line : 1 ≤ s.line_number_
  rest : s.rest <:+: text

/-- What becomes of the parser in the text: behind what it has consumed it is still inside, and
it fails as it may. -/
def Goes {α : Type} (stringToDouble : Bytes → Option ℚ) (text : Bytes) :
    Except ParseFailure (α × JSONParser) → Prop
  | .ok p => Inside text p.2.nextChar
  | .error e => TurnsDown stringToDouble text e

/-- An error that is reported has its code and the line the parser is in. -/
theorem turnsDown_reportError {code : JsonParseError} (hcode : code ≠ .noError)
    (hline : 1 ≤ s.line_number_) (column_adjust : ℤ) :
    TurnsDown stringToDouble text (s.reportError code column_adjust) :=
  Or.inl ⟨hcode, hline⟩

/-! ## Moving on -/

/-- Taking characters leaves the parser inside. -/
theorem Inside.nextNChars (h : Inside text s) (n : ℕ) : Inside text (s.nextNChars n) :=
  ⟨h.line, (List.drop_suffix n s.rest).isInfix.trans h.rest⟩

/-- The position stays in the text when a character is passed. -/
theorem Inside.nextChar (h : Inside text s) : Inside text s.nextChar := h.nextNChars 1

/-- Eating a comment stays in the count of lines. -/
theorem eatComment_line (s : JSONParser) : s.eatComment.2.line_number_ = s.line_number_ := by
  unfold eatComment
  dsimp only
  split_ifs <;> rfl

/-- The count of lines never falls. -/
theorem eatLoop_line (rounds : ℕ) (s : JSONParser) :
    s.line_number_ ≤ (eatLoop rounds s).line_number_ := by
  induction rounds generalizing s with
  | zero => exact le_rfl
  | succ rounds ih =>
      have hcount : s.line_number_ ≤ s.countLine.nextChar.line_number_ := by
        change s.line_number_ ≤ s.countLine.line_number_
        unfold countLine
        dsimp only
        split_ifs <;> omega
      unfold eatLoop
      split
      · exact le_rfl
      · split_ifs
        · exact hcount.trans (ih _)
        · exact ih s.nextChar
        · exact (eatComment_line s).ge.trans (ih _)
        · exact (eatComment_line s).ge
        · exact le_rfl

/-- White space and comments do not lead back a line. -/
theorem getNextToken_line (s : JSONParser) : s.line_number_ ≤ s.getNextToken.2.line_number_ := by
  rw [getNextToken_eq]
  exact eatLoop_line _ s

/-- Looking at the next token leaves the parser inside. -/
theorem Inside.getNextToken (h : Inside text s) : Inside text s.getNextToken.2 := by
  refine ⟨h.line.trans (getNextToken_line s), ?_⟩
  rw [getNextToken_rest]
  exact (skipGap_suffix s.rest).isInfix.trans h.rest

/-! ## Strings, numbers and words -/

/-- The loop over the characters of a string reports its errors in the line of the string. -/
theorem turnsDown_stringLoop {rounds index_ : ℕ} {behind string : Bytes} {e : ParseFailure}
    (hline : 1 ≤ s.line_number_)
    (h : stringLoop s rounds index_ behind string = .error e) :
    TurnsDown stringToDouble text e := by
  induction rounds generalizing index_ behind string with
  | zero =>
      cases h
      exact trivial
  | succ rounds ih =>
      cases behind with
      | nil => exact Except.error.inj h ▸ Or.inl ⟨by decide, hline⟩
      | cons b bs =>
          rw [stringLoop] at h
          split at h
          · exact Except.error.inj h ▸ Or.inl ⟨by decide, hline⟩
          · split_ifs at h
            · exact Except.error.inj h ▸ Or.inl ⟨by decide, hline⟩
            · exact ih h
            · split at h
              · exact Except.error.inj h ▸ Or.inl ⟨by decide, hline⟩
              · exact ih h

/-- A string is consumed, or turned down. -/
theorem goes_consumeStringRaw (h : Inside text s) :
    Goes stringToDouble text s.consumeStringRaw := by
  cases hstring : s.consumeStringRaw with
  | ok p =>
      obtain ⟨behind, rest, hs, hp, hread⟩ := readsString_of_consumeStringRaw hstring
      refine ⟨?_, ?_⟩
      · have hline : p.2.line_number_ = s.line_number_ := by
          unfold consumeStringRaw at hstring
          dsimp only at hstring
          split_ifs at hstring
          split at hstring
          · cases hstring
          · cases hstring
            rfl
        exact hline ▸ h.line
      · have hsuffix : rest <:+ s.rest := by
          rw [hs]
          exact hread.suffix.trans (List.suffix_cons _ _)
        rw [nextChar_rest, hp]
        exact hsuffix.isInfix.trans h.rest
  | error e =>
      unfold consumeStringRaw at hstring
      dsimp only at hstring
      split_ifs at hstring
      · cases hstring
        exact turnsDown_reportError (by decide) h.line 1
      · exact Except.error.inj hstring ▸ Or.inl ⟨by decide, h.line⟩
      · split at hstring
        · rename_i hloop
          cases hstring
          exact turnsDown_stringLoop h.line hloop
        · cases hstring

/-- A string is read, or an error is reported in one of its lines. -/
theorem goes_consumeString (h : Inside text s) : Goes stringToDouble text s.consumeString := by
  have hraw : Goes stringToDouble text s.consumeStringRaw := goes_consumeStringRaw h
  unfold consumeString
  split
  · rename_i he
    rwa [he] at hraw
  · rename_i he
    rwa [he] at hraw

/-- The digits of a number are in one line. -/
theorem readInt_line (allow : Bool) (s : JSONParser) :
    (s.readInt allow).2.line_number_ = s.line_number_ := rfl

/-- A fraction is on one line. -/
theorem readFraction_line (s : JSONParser) :
    s.readFraction.2.line_number_ = s.line_number_ := by
  unfold readFraction
  split_ifs <;> rfl

/-- An exponent is on one line. -/
theorem readExponent_line (s : JSONParser) :
    s.readExponent.2.line_number_ = s.line_number_ := by
  unfold readExponent skipSign
  split_ifs <;> rfl

/-- A number is in one line. -/
theorem readNumber_line (s : JSONParser) : s.readNumber.2.line_number_ = s.line_number_ := by
  have hsign : (if s.current = 45 then s.nextChar else s).line_number_ = s.line_number_ := by
    split_ifs <;> rfl
  unfold readNumber
  dsimp only
  generalize (if s.current = 45 then s.nextChar else s) = signed at hsign ⊢
  split_ifs
  · rw [readInt_line, hsign]
  · rw [readFraction_line, readInt_line, hsign]
  · rw [readExponent_line, readFraction_line, readInt_line, hsign]

/-- Behind a number the parser is in the line of the token that follows it. -/
theorem Inside.behindNumber (h : Inside text s) {line_number_ : ℕ} (hline : 1 ≤ line_number_)
    (n : ℕ) (index_last_line_ : ℕ) : Inside text
      ({ s.nextNChars n with line_number_, index_last_line_ } : JSONParser).nextChar :=
  ⟨hline, ((h.nextNChars n).nextChar).rest⟩

/-- A number is consumed, or turned down: without an error code only where it has no value. -/
theorem goes_consumeNumber (h : Inside text s) :
    Goes stringToDouble text (s.consumeNumber stringToDouble) := by
  have hline : 1 ≤ s.readNumber.2.line_number_ := (readNumber_line s).symm ▸ h.line
  have hnext : 1 ≤ s.readNumber.2.getNextToken.2.line_number_ :=
    hline.trans (getNextToken_line _)
  unfold consumeNumber
  dsimp only
  by_cases hnumber : s.readNumber.1 = false
  · rw [if_pos hnumber]
    exact turnsDown_reportError (by decide) hline 1
  rw [if_neg hnumber]
  by_cases hfollow : (!mayFollowNumber s.readNumber.2.getNextToken.1) = true
  · rw [if_pos hfollow]
    exact turnsDown_reportError (by decide) hnext 1
  rw [if_neg hfollow]
  by_cases hint : (stringToInt (s.rest.take (s.readNumber.2.index_ - s.index_))).1 = true
  · rw [if_pos hint]
    exact h.behindNumber hnext _ _
  rw [if_neg hint]
  split
  · exact h.behindNumber hnext _ _
  · rename_i hnone
    obtain ⟨numeral, hnumeral, hrest, hindex⟩ :=
      readNumber_sound (Prod.ext (Bool.eq_true_of_not_eq_false hnumber) rfl :
        s.readNumber = (true, s.readNumber.2))
    have htake : s.rest.take (s.readNumber.2.index_ - s.index_) = numeral := by
      rw [hindex, Nat.add_sub_cancel_left, hrest, List.take_left]
    rw [htake] at hint hnone
    refine Or.inr ⟨rfl, rfl, rfl, numeral, ?_, hnumeral, ?_⟩
    · exact (hrest ▸ List.prefix_append numeral _ : numeral <+: s.rest).isInfix.trans h.rest
    · rw [numberValue, if_neg hint, hnone]
      rfl

/-- A word is read, or an error is reported. -/
theorem goes_consumeLiteral (h : Inside text s) :
    Goes stringToDouble text s.consumeLiteral := by
  unfold consumeLiteral consumeWord
  split_ifs
  · exact turnsDown_reportError (by decide) h.line 1
  · exact (h.nextNChars _).nextChar
  · exact turnsDown_reportError (by decide) h.line 1
  · exact (h.nextNChars _).nextChar
  · exact turnsDown_reportError (by decide) h.line 1
  · exact (h.nextNChars _).nextChar
  · exact turnsDown_reportError (by decide) h.line 1

/-! ## Values -/

/-- What becomes of the parser with a number of rounds. -/
structure GoesWith (stringToDouble : Bytes → Option ℚ) (text : Bytes) (rounds : ℕ) : Prop where
  parseToken : ∀ {depth token s}, Inside text s →
    Goes stringToDouble text (parseToken stringToDouble rounds depth token s)
  consumeDictionary : ∀ {depth s}, Inside text s →
    Goes stringToDouble text (consumeDictionary stringToDouble rounds depth s)
  dictionaryLoop : ∀ {depth token s dict}, Inside text s →
    Goes stringToDouble text (dictionaryLoop stringToDouble rounds depth token s dict)
  consumeList : ∀ {depth s}, Inside text s →
    Goes stringToDouble text (consumeList stringToDouble rounds depth s)
  listLoop : ∀ {depth token s l}, Inside text s →
    Goes stringToDouble text (listLoop stringToDouble rounds depth token s l)

namespace GoesWith

variable {rounds depth : ℕ} {token : Token} (h : GoesWith stringToDouble text rounds)

include h

/-- A value, with one more round: the cases of the token. -/
theorem parseToken_succ (hs : Inside text s) :
    Goes stringToDouble text
      (JSONParser.parseToken stringToDouble (rounds + 1) depth token s) := by
  cases token with
  | objectBegin =>
      rw [JSONParser.parseToken]
      exact h.consumeDictionary hs
  | arrayBegin =>
      rw [JSONParser.parseToken]
      exact h.consumeList hs
  | string =>
      rw [JSONParser.parseToken]
      exact goes_consumeString hs
  | number =>
      rw [JSONParser.parseToken]
      exact goes_consumeNumber hs
  | boolTrue =>
      rw [JSONParser.parseToken]
      exact goes_consumeLiteral hs
  | boolFalse =>
      rw [JSONParser.parseToken]
      exact goes_consumeLiteral hs
  | null =>
      rw [JSONParser.parseToken]
      exact goes_consumeLiteral hs
  | _ => exact Or.inl ⟨by decide, hs.line⟩

/-- A dictionary, with one more round. -/
theorem consumeDictionary_succ (hs : Inside text s) :
    Goes stringToDouble text
      (JSONParser.consumeDictionary stringToDouble (rounds + 1) depth s) := by
  rw [JSONParser.consumeDictionary]
  split_ifs
  · exact turnsDown_reportError (by decide) hs.line 1
  · exact turnsDown_reportError (by decide) hs.line 1
  · exact h.dictionaryLoop hs.nextChar.getNextToken

/-- A list, with one more round. -/
theorem consumeList_succ (hs : Inside text s) :
    Goes stringToDouble text
      (JSONParser.consumeList stringToDouble (rounds + 1) depth s) := by
  rw [JSONParser.consumeList]
  split_ifs
  · exact turnsDown_reportError (by decide) hs.line 1
  · exact turnsDown_reportError (by decide) hs.line 1
  · exact h.listLoop hs.nextChar.getNextToken

/-- The items of a list, with one more round. -/
theorem listLoop_succ {l : List Value} (hs : Inside text s) :
    Goes stringToDouble text
      (JSONParser.listLoop stringToDouble (rounds + 1) depth token s l) := by
  rw [JSONParser.listLoop]
  by_cases hend : token = .arrayEnd
  · rw [if_pos hend]
    exact hs.nextChar
  rw [if_neg hend]
  have hitem : Goes stringToDouble text
      (JSONParser.parseToken stringToDouble rounds depth token s) := h.parseToken hs
  split
  · rename_i he
    rwa [he] at hitem
  · rename_i item t he
    rw [he] at hitem
    have hnext : Inside text t.nextChar.getNextToken.2 := Inside.getNextToken hitem
    have hbehind := hnext.nextChar.getNextToken
    dsimp only
    split_ifs
    · exact turnsDown_reportError (by decide) hbehind.line 1
    · exact h.listLoop hbehind
    · exact turnsDown_reportError (by decide) hnext.line 1
    · exact h.listLoop hnext

/-- The entries of a dictionary, with one more round. -/
theorem dictionaryLoop_succ {dict : Dictionary} (hs : Inside text s) :
    Goes stringToDouble text
      (JSONParser.dictionaryLoop stringToDouble (rounds + 1) depth token s dict) := by
  rw [JSONParser.dictionaryLoop]
  by_cases hend : token = .objectEnd
  · rw [if_pos hend]
    exact hs.nextChar
  rw [if_neg hend]
  by_cases hquote : token ≠ .string
  · rw [if_pos hquote]
    exact turnsDown_reportError (by decide) hs.line 1
  rw [if_neg hquote]
  have hkey : Goes stringToDouble text s.consumeStringRaw := goes_consumeStringRaw hs
  split
  · rename_i he
    rwa [he] at hkey
  rename_i key k he
  rw [he] at hkey
  have hcolon : Inside text k.nextChar.getNextToken.2 := Inside.getNextToken hkey
  dsimp only
  split_ifs
  · exact turnsDown_reportError (by decide) hcolon.line 1
  have hvalue : Goes stringToDouble text (JSONParser.parseToken stringToDouble rounds depth
      k.nextChar.getNextToken.2.nextChar.getNextToken.1
      k.nextChar.getNextToken.2.nextChar.getNextToken.2) :=
    h.parseToken hcolon.nextChar.getNextToken
  split
  · rename_i he'
    rwa [he'] at hvalue
  rename_i value t he'
  rw [he'] at hvalue
  have hnext : Inside text t.nextChar.getNextToken.2 := Inside.getNextToken hvalue
  have hbehind := hnext.nextChar.getNextToken
  split_ifs
  · exact turnsDown_reportError (by decide) hbehind.line 1
  · exact h.dictionaryLoop hbehind
  · exact turnsDown_reportError (by decide) hnext.line 0
  · exact h.dictionaryLoop hnext

end GoesWith

/-- Whatever the rounds are, the parser goes on inside the text or fails as it may. -/
theorem goes (stringToDouble : Bytes → Option ℚ) (text : Bytes) (rounds : ℕ) :
    GoesWith stringToDouble text rounds := by
  induction rounds with
  | zero =>
      constructor <;> intros <;> exact trivial
  | succ rounds ih =>
      exact ⟨ih.parseToken_succ, ih.consumeDictionary_succ, ih.dictionaryLoop_succ,
        ih.consumeList_succ, ih.listLoop_succ⟩

/-! ## Whole texts -/

/-- The parser begins inside the text. -/
theorem inside_start (input : Bytes) : Inside input (start input) := by
  have hbegin : Inside input { rest := input } := ⟨Nat.le_refl 1, List.infix_rfl⟩
  unfold start
  dsimp only
  split_ifs
  · exact hbegin.nextNChars 3
  · exact hbegin

/-- **Every failure is reported**, but for a number that cannot be read. -/
theorem turnsDown_of_parse {input : Bytes} {e : ParseFailure}
    (h : parse stringToDouble input = .error e) : TurnsDown stringToDouble input e := by
  have hroot : Goes stringToDouble input (parseToken stringToDouble (3 * input.length + 1) 0
      (start input).getNextToken.1 (start input).getNextToken.2) :=
    (goes stringToDouble input _).parseToken (inside_start input).getNextToken
  unfold parse at h
  dsimp only at h
  split at h
  · rename_i he
    rw [he] at hroot
    cases h
    exact hroot
  · rename_i root s he
    rw [he] at hroot
    have hline : 1 ≤ s.line_number_ := hroot.line
    have hnext : 1 ≤ s.getNextToken.2.line_number_ := hline.trans (getNextToken_line s)
    have hlast : 1 ≤ s.getNextToken.2.nextChar.getNextToken.2.line_number_ :=
      hnext.trans (getNextToken_line s.getNextToken.2.nextChar)
    split_ifs at h
    · exact Except.error.inj h ▸ Or.inl ⟨by decide, hnext⟩
    · exact Except.error.inj h ▸ Or.inl ⟨by decide, hlast⟩

end TronWallet.Analysis
