import TronWallet.Analysis.Utf8
import TronWallet.Model.JsonParser

/-!
# The words of a JSON text

What the parser takes from the front of a text, apart from where it stands: the gap of white
space and comments, the token behind it, a string and a number.  Strings are described by the
relation `ReadsString`, numbers by `IsNumeral` and by what may follow them; each is shown to
be what the loops of the parser accept.
-/

set_option autoImplicit false

namespace TronWallet.Analysis

open TronWallet.Lib TronWallet.Model JSONParser

/-! ## Gaps -/

/-- What is behind the white space and the comments a text begins with. -/
def skipGap (text : Bytes) : Bytes := (eatWhitespaceAndComments { rest := text }).rest

/-- The token a text begins with. -/
def tokenOf : Bytes → Token
  | [] => .endOfInput
  | c :: _ => tokenAt c

/-- Passing characters drops them from the text. -/
@[simp] theorem nextNChars_rest (n : ℕ) (s : JSONParser) :
    (s.nextNChars n).rest = s.rest.drop n := rfl

/-- Passing a character drops it from the text. -/
@[simp] theorem nextChar_rest (s : JSONParser) : s.nextChar.rest = s.rest.drop 1 := rfl

/-- Counting a line leaves the text. -/
@[simp] theorem countLine_rest (s : JSONParser) : s.countLine.rest = s.rest := rfl

/-- A comment is found by the text alone. -/
theorem eatComment_congr {s t : JSONParser} (h : s.rest = t.rest) :
    s.eatComment.1 = t.eatComment.1 ∧ s.eatComment.2.rest = t.eatComment.2.rest := by
  have hnext : s.nextChar.rest = t.nextChar.rest := by rw [nextChar_rest, nextChar_rest, h]
  have hcurrent : s.nextChar.current = t.nextChar.current := by rw [current, current, hnext]
  unfold eatComment
  dsimp only
  rw [hcurrent]
  by_cases hline : t.nextChar.current = 47
  · rw [if_pos hline, if_pos hline, hnext]
    exact ⟨rfl, by rw [nextNChars_rest, nextNChars_rest, hnext]⟩
  · rw [if_neg hline, if_neg hline]
    by_cases hblock : t.nextChar.current = 42
    · rw [if_pos hblock, if_pos hblock, hnext]
      exact ⟨rfl, by rw [nextNChars_rest, nextNChars_rest, hnext]⟩
    · rw [if_neg hblock, if_neg hblock]
      exact ⟨rfl, hnext⟩

/-- A gap is found by the text alone. -/
theorem eatLoop_congr (rounds : ℕ) {s t : JSONParser} (h : s.rest = t.rest) :
    (eatLoop rounds s).rest = (eatLoop rounds t).rest := by
  induction rounds generalizing s t with
  | zero => exact h
  | succ rounds ih =>
      have hcomment := eatComment_congr h
      unfold eatLoop
      rw [← h, ← hcomment.1]
      cases hrest : s.rest with
      | nil => exact h
      | cons c rest =>
          dsimp only
          split_ifs
          · exact ih (by rw [nextChar_rest, nextChar_rest, countLine_rest, countLine_rest, h])
          · exact ih (by rw [nextChar_rest, nextChar_rest, h])
          · exact ih hcomment.2
          · exact hcomment.2
          · exact h

/-- What is left behind white space and comments is the text behind the gap. -/
theorem eatWhitespaceAndComments_rest (s : JSONParser) :
    s.eatWhitespaceAndComments.rest = skipGap s.rest := eatLoop_congr s.rest.length rfl

/-- The next token is the one behind the gap. -/
theorem getNextToken_eq (s : JSONParser) :
    s.getNextToken = (tokenOf (skipGap s.rest), s.eatWhitespaceAndComments) := by
  unfold getNextToken
  rw [eatWhitespaceAndComments_rest]
  cases skipGap s.rest <;> rfl

/-- The next token is seen at the character behind the gap. -/
@[simp] theorem getNextToken_fst (s : JSONParser) :
    s.getNextToken.1 = tokenOf (skipGap s.rest) := by rw [getNextToken_eq]

/-- The text of the next token is what is behind the gap. -/
@[simp] theorem getNextToken_rest (s : JSONParser) :
    s.getNextToken.2.rest = skipGap s.rest := by
  rw [getNextToken_eq]
  exact eatWhitespaceAndComments_rest s

/-- There is nothing behind the gap of an empty text. -/
@[simp] theorem skipGap_nil : skipGap [] = [] := rfl

/-- White space. -/
def IsBlank (c : UInt8) : Prop := c = 13 ∨ c = 10 ∨ c = 32 ∨ c = 9

/-- A character that neither is white space nor begins a comment. -/
def IsSolid (c : UInt8) : Prop := ¬IsBlank c ∧ c ≠ 47

/-- A blank belongs to the gap. -/
theorem skipGap_blank {c : UInt8} (h : IsBlank c) (rest : Bytes) :
    skipGap (c :: rest) = skipGap rest := by
  unfold skipGap eatWhitespaceAndComments
  rw [List.length_cons, eatLoop]
  dsimp only
  by_cases hline : c = 13 ∨ c = 10
  · rw [if_pos hline]
    exact eatLoop_congr rest.length rfl
  · rw [if_neg hline, if_pos (by unfold IsBlank at h; tauto)]
    exact eatLoop_congr rest.length rfl

/-- A character that is no blank and no slash ends the gap. -/
theorem skipGap_solid {c : UInt8} (h : IsSolid c) (rest : Bytes) :
    skipGap (c :: rest) = c :: rest := by
  unfold IsSolid IsBlank at h
  unfold skipGap eatWhitespaceAndComments
  rw [List.length_cons, eatLoop]
  dsimp only
  rw [if_neg (by tauto), if_neg (by tauto), if_neg h.2]

/-- A text of white space is a gap. -/
theorem skipGap_blanks {blanks : Bytes} (h : ∀ c ∈ blanks, IsBlank c) (rest : Bytes) :
    skipGap (blanks ++ rest) = skipGap rest := by
  induction blanks with
  | nil => rfl
  | cons c cs ih =>
      rw [List.cons_append, skipGap_blank (h c List.mem_cons_self),
        ih fun c hc => h c (List.mem_cons_of_mem _ hc)]

/-- What is behind a comment is a suffix of the text. -/
theorem eatComment_suffix (s : JSONParser) : s.eatComment.2.rest <:+ s.rest := by
  unfold eatComment
  dsimp only
  split_ifs
  · exact (List.drop_suffix _ _).trans (List.drop_suffix _ _)
  · exact (List.drop_suffix _ _).trans (List.drop_suffix _ _)
  · exact List.drop_suffix _ _

/-- What the loop leaves is a suffix of the text. -/
theorem eatLoop_suffix (rounds : ℕ) (s : JSONParser) : (eatLoop rounds s).rest <:+ s.rest := by
  induction rounds generalizing s with
  | zero => exact List.suffix_rfl
  | succ rounds ih =>
      unfold eatLoop
      split
      · exact List.suffix_rfl
      · split_ifs
        · exact (ih s.countLine.nextChar).trans (List.drop_suffix _ _)
        · exact (ih s.nextChar).trans (List.drop_suffix _ _)
        · exact (ih s.eatComment.2).trans (eatComment_suffix s)
        · exact eatComment_suffix s
        · exact List.suffix_rfl

/-- What is behind a gap is a suffix of the text. -/
theorem skipGap_suffix (text : Bytes) : skipGap text <:+ text := eatLoop_suffix _ _

/-- Skipping a gap does not make a text longer. -/
theorem skipGap_length_le (text : Bytes) : (skipGap text).length ≤ text.length :=
  (skipGap_suffix text).length_le

/-! ## Strings -/

/-- A code point is appended as the macro writes it. -/
theorem appendCodePoint_eq (c : ℕ) : appendCodePoint c = cbu8AppendUnsafe c := by
  unfold appendCodePoint cbu8AppendUnsafe
  by_cases h : c < 0x80
  · rw [if_pos h, if_pos (by omega)]
  · rw [if_neg h]

/-- A character is a code point. -/
theorem isValidCodepoint_of_isValidCharacter {c : ℕ} (h : isValidCharacter c = true) :
    isValidCodepoint c = true := by
  have hc := of_decide_eq_true h
  exact decide_eq_true (by omega)

/-- From behind the opening quote of a string: the text, the string and the text behind the
closing quote. -/
inductive ReadsString : Bytes → Bytes → Bytes → Prop
  | close (rest : Bytes) : ReadsString (34 :: rest) [] rest
  | character {c : ℕ} {text string rest : Bytes} (valid : isValidCharacter c = true)
      (quote : c ≠ 34) (backslash : c ≠ 92) (tail : ReadsString text string rest) :
      ReadsString (cbu8AppendUnsafe c ++ text) (cbu8AppendUnsafe c ++ string) rest
  | escape {text appended : Bytes} {steps : ℕ} {string rest : Bytes}
      (sequence : consumeEscape text = .ok (appended, steps))
      (tail : ReadsString (text.drop steps) string rest) :
      ReadsString (92 :: text) (appended ++ string) rest

/-- What the loop accepts is a string. -/
theorem readsString_of_stringLoop {s : JSONParser} {rounds index_ position : ℕ}
    {text string₀ string behind : Bytes}
    (h : stringLoop s rounds index_ text string₀ = .ok (string, position, behind)) :
    ∃ tail, string = string₀ ++ tail ∧ ReadsString text tail behind := by
  induction rounds generalizing index_ text string₀ with
  | zero => cases h
  | succ rounds ih =>
      cases text with
      | nil => cases h
      | cons b bs =>
          rw [stringLoop] at h
          cases hnext : cbu8Next (b :: bs) with
          | mk next rest =>
              rw [hnext] at h
              cases next with
              | none => cases h
              | some c =>
                  obtain ⟨htext, -⟩ := eq_of_cbu8Next hnext
                  dsimp only at h
                  by_cases hvalid : isValidCharacter c = true
                  swap
                  · rw [Bool.not_eq_true] at hvalid
                    rw [hvalid] at h
                    cases h
                  rw [hvalid, if_neg (by decide)] at h
                  by_cases hquote : c = 34
                  · rw [if_pos hquote] at h
                    obtain ⟨rfl, -, rfl⟩ := h
                    subst hquote
                    exact ⟨[], (List.append_nil _).symm, by rw [htext]; exact .close behind⟩
                  rw [if_neg hquote] at h
                  by_cases hbackslash : c = 92
                  · rw [if_neg (not_not.mpr hbackslash)] at h
                    subst hbackslash
                    cases hescape : consumeEscape rest with
                    | error e =>
                        rw [hescape] at h
                        cases h
                    | ok p =>
                        rw [hescape] at h
                        obtain ⟨tail, rfl, htail⟩ := ih h
                        refine ⟨p.1 ++ tail, by rw [List.append_assoc], ?_⟩
                        rw [htext]
                        exact .escape hescape htail
                  · rw [if_pos hbackslash, appendCodePoint_eq] at h
                    obtain ⟨tail, rfl, htail⟩ := ih h
                    refine ⟨cbu8AppendUnsafe c ++ tail, by rw [List.append_assoc], ?_⟩
                    rw [htext]
                    exact .character hvalid hquote hbackslash htail

/-- A string is taken apart by the first character that is read of its text. -/
theorem ReadsString.next {text string rest : Bytes} (h : ReadsString text string rest) :
    ∃ c more, cbu8Next text = (some c, more) ∧ isValidCharacter c = true ∧
      (c = 34 ∧ string = [] ∧ rest = more ∨
        (c ≠ 34 ∧ c ≠ 92 ∧ ∃ tail, string = cbu8AppendUnsafe c ++ tail ∧
          ReadsString more tail rest) ∨
        c = 92 ∧ ∃ appended steps tail, consumeEscape more = .ok (appended, steps) ∧
          string = appended ++ tail ∧ ReadsString (more.drop steps) tail rest) := by
  cases h with
  | close => exact ⟨34, rest, rfl, by decide, Or.inl ⟨rfl, rfl, rfl⟩⟩
  | @character c text tail _ valid quote backslash reads =>
      exact ⟨c, text,
        cbu8Next_cbu8AppendUnsafe (isValidCodepoint_of_isValidCharacter valid) text, valid,
        Or.inr (Or.inl ⟨quote, backslash, tail, rfl, reads⟩)⟩
  | @escape text appended steps tail _ sequence reads =>
      exact ⟨92, text, rfl, by decide,
        Or.inr (Or.inr ⟨rfl, appended, steps, tail, sequence, rfl, reads⟩)⟩

/-- A quote closes the string. -/
theorem readsString_quote_iff {text string rest : Bytes} :
    ReadsString (34 :: text) string rest ↔ string = [] ∧ rest = text := by
  constructor
  · intro h
    obtain ⟨c, more, hnext, -, h⟩ := h.next
    obtain ⟨rfl, rfl⟩ : 34 = c ∧ text = more := by
      have heq : (some 34, text) = (some c, more) := hnext
      exact (Prod.mk.inj heq).imp Option.some.inj id
    rcases h with ⟨-, hstring, hrest⟩ | ⟨hquote, -⟩ | ⟨hbackslash, -⟩
    · exact ⟨hstring, hrest⟩
    · exact absurd rfl hquote
    · exact absurd hbackslash (by decide)
  · rintro ⟨rfl, rfl⟩
    exact .close rest

/-- A character is read if it is valid, and the rest of the string behind it. -/
theorem readsString_character_iff {c : ℕ} {text string rest : Bytes}
    (hcodepoint : isValidCodepoint c = true) (hquote : c ≠ 34) (hbackslash : c ≠ 92) :
    ReadsString (cbu8AppendUnsafe c ++ text) string rest ↔ isValidCharacter c = true ∧
      ∃ tail, string = cbu8AppendUnsafe c ++ tail ∧ ReadsString text tail rest := by
  constructor
  · intro h
    obtain ⟨d, more, hnext, hvalid, h⟩ := h.next
    obtain ⟨rfl, rfl⟩ : c = d ∧ text = more := by
      rw [cbu8Next_cbu8AppendUnsafe hcodepoint] at hnext
      exact (Prod.mk.inj hnext).imp Option.some.inj id
    rcases h with ⟨h, -⟩ | ⟨-, -, h⟩ | ⟨h, -⟩
    · exact absurd h hquote
    · exact ⟨hvalid, h⟩
    · exact absurd h hbackslash
  · rintro ⟨hvalid, tail, rfl, h⟩
    exact .character hvalid hquote hbackslash h

/-- An escape sequence is read as what it stands for. -/
theorem readsString_escape_iff {text appended string rest : Bytes} {steps : ℕ}
    (hescape : consumeEscape text = .ok (appended, steps)) :
    ReadsString (92 :: text) string rest ↔
      ∃ tail, string = appended ++ tail ∧ ReadsString (text.drop steps) tail rest := by
  constructor
  · intro h
    obtain ⟨c, more, hnext, -, h⟩ := h.next
    obtain ⟨rfl, rfl⟩ : 92 = c ∧ text = more := by
      have heq : (some 92, text) = (some c, more) := hnext
      exact (Prod.mk.inj heq).imp Option.some.inj id
    rcases h with ⟨h, -⟩ | ⟨-, h, -⟩ | ⟨-, appended', steps', tail, hescape', rfl, h⟩
    · exact absurd h (by decide)
    · exact absurd rfl h
    · rw [hescape] at hescape'
      obtain ⟨rfl, rfl⟩ := Prod.mk.inj (Except.ok.inj hescape')
      exact ⟨tail, rfl, h⟩
  · rintro ⟨tail, rfl, h⟩
    exact .escape hescape h

section

variable {s : JSONParser} {rounds index_ : ℕ} {text behind : Bytes} {c : ℕ}

/-- The closing quote ends the loop. -/
theorem stringLoop_close (string : Bytes) :
    stringLoop s (rounds + 1) index_ (34 :: text) string =
      .ok (string, index_ + ((34 :: text).length - text.length) - 1, text) := rfl

/-- A character is appended. -/
theorem stringLoop_character (string : Bytes) (hvalid : isValidCharacter c = true)
    (hquote : c ≠ 34) (hbackslash : c ≠ 92) :
    stringLoop s (rounds + 1) index_ (cbu8AppendUnsafe c ++ text) string =
      stringLoop s rounds (index_ + ((cbu8AppendUnsafe c ++ text).length - text.length)) text
        (string ++ cbu8AppendUnsafe c) := by
  have hnext := cbu8Next_cbu8AppendUnsafe (isValidCodepoint_of_isValidCharacter hvalid) text
  cases htext : cbu8AppendUnsafe c ++ text with
  | nil => exact absurd (List.append_eq_nil_iff.mp htext).1 (cbu8AppendUnsafe_ne_nil c)
  | cons b bs =>
      rw [htext] at hnext
      rw [stringLoop, hnext]
      dsimp only
      rw [hvalid, if_neg (by decide), if_neg hquote, if_pos hbackslash, appendCodePoint_eq]

/-- What an escape sequence stands for is appended. -/
theorem stringLoop_escape {appended : Bytes} {steps : ℕ} (string : Bytes)
    (hescape : consumeEscape text = .ok (appended, steps)) :
    stringLoop s (rounds + 1) index_ (92 :: text) string =
      stringLoop s rounds (index_ + ((92 :: text).length - text.length) + steps)
        (text.drop steps) (string ++ appended) := by
  have hnext : cbu8Next (92 :: text) = (some 92, text) := rfl
  rw [stringLoop, hnext]
  dsimp only
  rw [if_neg (by decide), if_neg (by decide), if_neg (by decide), hescape]

end

/-- A string is accepted by the loop, if it has a round for each character of the text. -/
theorem stringLoop_of_readsString (s : JSONParser) (index_ : ℕ) {rounds : ℕ}
    {text tail behind : Bytes} (h : ReadsString text tail behind) (string : Bytes)
    (hrounds : text.length < rounds) :
    ∃ position,
      stringLoop s rounds index_ text string = .ok (string ++ tail, position, behind) := by
  induction h generalizing rounds index_ string with
  | close rest =>
      obtain ⟨rounds, rfl⟩ : ∃ k, rounds = k + 1 := ⟨rounds - 1, by omega⟩
      rw [stringLoop_close, List.append_nil]
      exact ⟨_, rfl⟩
  | @character c text tail rest hvalid hquote hbackslash _ ih =>
      obtain ⟨rounds, rfl⟩ : ∃ k, rounds = k + 1 := ⟨rounds - 1, by omega⟩
      have hpos := List.length_pos_iff.mpr (cbu8AppendUnsafe_ne_nil c)
      rw [List.length_append] at hrounds
      rw [stringLoop_character string hvalid hquote hbackslash, ← List.append_assoc]
      exact ih _ _ (by omega)
  | @escape text appended steps tail rest hescape _ ih =>
      obtain ⟨rounds, rfl⟩ : ∃ k, rounds = k + 1 := ⟨rounds - 1, by omega⟩
      rw [List.length_cons] at hrounds
      rw [stringLoop_escape string hescape, ← List.append_assoc]
      exact ih _ _ (by rw [List.length_drop]; omega)

/-- The rounds of the loop are never used up. -/
theorem stringLoop_ne_outOfRounds (s : JSONParser) (index_ : ℕ) {rounds : ℕ} {text : Bytes}
    (string : Bytes) (hrounds : text.length < rounds) :
    stringLoop s rounds index_ text string ≠ .error .outOfRounds := by
  induction rounds generalizing index_ text string with
  | zero => cases hrounds
  | succ rounds ih =>
      cases text with
      | nil =>
          rw [stringLoop]
          exact fun h => nomatch h
      | cons b bs =>
          have hshort := cbu8Next_shorter (List.cons_ne_nil b bs)
          rw [stringLoop]
          cases hnext : cbu8Next (b :: bs) with
          | mk next behind =>
              rw [hnext] at hshort
              dsimp only at hshort ⊢
              cases next with
              | none => exact fun h => nomatch h
              | some c =>
                  dsimp only
                  split_ifs
                  · exact fun h => nomatch h
                  · exact fun h => nomatch h
                  · exact ih _ _ (by omega)
                  · cases consumeEscape behind with
                    | error e => exact fun h => nomatch h
                    | ok p => exact ih _ _ (by rw [List.length_drop]; omega)

/-- A text whose character is not NUL begins with it. -/
theorem rest_of_current {s : JSONParser} {c : UInt8} (hc : c ≠ 0) (h : s.current = c) :
    ∃ text, s.rest = c :: text := by
  unfold current at h
  cases hrest : s.rest with
  | nil =>
      rw [hrest] at h
      exact absurd h.symm hc
  | cons b bs =>
      rw [hrest] at h
      exact ⟨bs, by rw [← h]; rfl⟩

/-- A string that is consumed. -/
theorem readsString_of_consumeStringRaw {s s' : JSONParser} {string : Bytes}
    (h : s.consumeStringRaw = .ok (string, s')) :
    ∃ text rest, s.rest = 34 :: text ∧ s'.rest = 34 :: rest ∧ ReadsString text string rest := by
  unfold consumeStringRaw at h
  by_cases hquote : s.current = 34
  swap
  · rw [if_pos hquote] at h
    cases h
  obtain ⟨text, htext⟩ := rest_of_current (by decide) hquote
  rw [if_neg (not_not.mpr hquote)] at h
  dsimp only at h
  rw [nextChar_rest, htext, List.drop_one, List.tail_cons] at h
  split_ifs at h
  split at h
  · cases h
  · rename_i result position behind hloop
    obtain ⟨rfl, rfl⟩ := h
    obtain ⟨tail, rfl, htail⟩ := readsString_of_stringLoop hloop
    exact ⟨text, behind, htext, rfl, htail⟩

/-- A string is consumed up to its closing quote. -/
theorem consumeStringRaw_of_readsString {s : JSONParser} {text string rest : Bytes}
    (hrest : s.rest = 34 :: text) (h : ReadsString text string rest) :
    ∃ s', s.consumeStringRaw = .ok (string, s') ∧ s'.rest = 34 :: rest := by
  have hne : text ≠ [] := by
    rintro rfl
    generalize htext : ([] : Bytes) = text at h
    cases h with
    | close => cases htext
    | character => exact cbu8AppendUnsafe_ne_nil _ (List.append_eq_nil_iff.mp htext.symm).1
    | escape => cases htext
  have hcurrent : s.current = 34 := by rw [current, hrest]; rfl
  obtain ⟨position, hloop⟩ := stringLoop_of_readsString s s.nextChar.index_ h []
    (Nat.lt_succ_self text.length)
  unfold consumeStringRaw
  rw [if_neg (not_not.mpr hcurrent)]
  dsimp only
  rw [nextChar_rest, hrest, List.drop_one, List.tail_cons, if_neg hne, hloop]
  exact ⟨_, rfl, rfl⟩

/-- The rounds suffice for every string. -/
theorem consumeStringRaw_ne_outOfRounds (s : JSONParser) :
    s.consumeStringRaw ≠ .error .outOfRounds := by
  unfold consumeStringRaw
  split_ifs
  · exact fun h => nomatch h
  · dsimp only
    split_ifs
    · exact fun h => nomatch h
    · have hloop := stringLoop_ne_outOfRounds s s.nextChar.index_ []
        (Nat.lt_succ_self s.nextChar.rest.length)
      split
      · rename_i e he
        rw [he] at hloop
        exact fun h => hloop (congrArg Except.error (Except.error.inj h))
      · exact fun h => nomatch h

end TronWallet.Analysis
