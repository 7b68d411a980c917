import TronWallet.Analysis.JsonDialect

/-!
# The parser and its language

The parser accepts the texts of the language and no others (`parse_eq_ok_iff`).  That it
accepts nothing else is an induction on its rounds (`sound`), that it accepts everything an
induction on the reading (`Reads.parses`), and the rounds it is given are enough for every
text (`enough`).  As the parser is a function, a text is read in one way (`Reads.unique`).
-/

set_option autoImplicit false

namespace TronWallet.Analysis

open TronWallet.Lib TronWallet.Model JSONParser

variable {stringToDouble : Bytes → Option ℚ}

/-! ## What the parser accepts is in the language -/

/-- Words that are consumed. -/
theorem literal_of_consumeLiteral {s s' : JSONParser} {v : Value}
    (h : s.consumeLiteral = .ok (v, s')) :
    ∃ word rest c, (word, v) ∈ literals ∧ s.rest = word ++ rest ∧ s'.rest = c :: rest ∧
      IsSolid c := by
  have hword : ∀ (init : Bytes) (c : UInt8) (value : Value),
      s.consumeWord (init ++ [c]) value = .ok (v, s') →
        v = value ∧ ∃ rest, s.rest = (init ++ [c]) ++ rest ∧ s'.rest = c :: rest := by
    intro init c value h
    unfold consumeWord at h
    split_ifs at h with hbad
    obtain ⟨rfl, rfl⟩ := h
    rw [not_or, not_not] at hbad
    have hrest : s.rest = (init ++ [c]) ++ s.rest.drop (init ++ [c]).length := by
      conv_lhs => rw [← List.take_append_drop (init ++ [c]).length s.rest, hbad.2]
    refine ⟨rfl, _, hrest, ?_⟩
    rw [nextNChars_rest, hrest]
    simp
  unfold consumeLiteral at h
  split_ifs at h
  · obtain ⟨rfl, rest, hrest, hlast⟩ := hword (asciiText "tru") 101 _ h
    exact ⟨asciiText "true", rest, 101, by simp [literals], hrest, hlast,
      by unfold IsSolid IsBlank; decide⟩
  · obtain ⟨rfl, rest, hrest, hlast⟩ := hword (asciiText "fals") 101 _ h
    exact ⟨asciiText "false", rest, 101, by simp [literals], hrest, hlast,
      by unfold IsSolid IsBlank; decide⟩
  · obtain ⟨rfl, rest, hrest, hlast⟩ := hword (asciiText "nul") 108 _ h
    exact ⟨asciiText "null", rest, 108, by simp [literals], hrest, hlast,
      by unfold IsSolid IsBlank; decide⟩

/-- A digit is no part of a gap. -/
theorem isSolid_of_digit {c : UInt8} (h : 48 ≤ c ∧ c ≤ 57) : IsSolid c := by
  have hne : ∀ d : UInt8, ¬(48 ≤ d ∧ d ≤ 57) → c ≠ d := by
    rintro d hd rfl
    exact hd h
  refine ⟨?_, hne 47 (by decide)⟩
  rintro (hc | hc | hc | hc)
  · exact hne 13 (by decide) hc
  · exact hne 10 (by decide) hc
  · exact hne 32 (by decide) hc
  · exact hne 9 (by decide) hc

/-- What is accepted with a number of rounds. -/
structure Sound (stringToDouble : Bytes → Option ℚ) (rounds : ℕ) : Prop where
  parseToken : ∀ {depth s v s'},
    parseToken stringToDouble rounds depth (tokenOf s.rest) s = .ok (v, s') →
      ∃ c rest, s'.rest = c :: rest ∧ IsSolid c ∧
        Reads stringToDouble depth s.rest (.value v) rest
  consumeDictionary : ∀ {depth s v s'},
    consumeDictionary stringToDouble rounds depth s = .ok (v, s') →
      ∃ rest, s'.rest = 125 :: rest ∧ Reads stringToDouble depth s.rest (.value v) rest
  dictionaryLoop : ∀ {depth s dict v s'},
    dictionaryLoop stringToDouble rounds depth (tokenOf s.rest) s dict = .ok (v, s') →
      ∃ d rest, v = .dictionary (dictionaryOf d dict) ∧ s'.rest = 125 :: rest ∧
        Reads stringToDouble depth s.rest (.entries d) rest
  consumeList : ∀ {depth s v s'},
    consumeList stringToDouble rounds depth s = .ok (v, s') →
      ∃ rest, s'.rest = 93 :: rest ∧ Reads stringToDouble depth s.rest (.value v) rest
  listLoop : ∀ {depth s l v s'},
    listLoop stringToDouble rounds depth (tokenOf s.rest) s l = .ok (v, s') →
      ∃ items rest, v = .list (l ++ items) ∧ s'.rest = 93 :: rest ∧
        Reads stringToDouble depth s.rest (.items items) rest

/-- A bracket is seen as the end of a list. -/
theorem tokenAt_arrayEnd : tokenAt 93 = .arrayEnd := rfl

/-- A brace is seen as the end of a dictionary. -/
theorem tokenAt_objectEnd : tokenAt 125 = .objectEnd := rfl

/-- The token is the one at the character the parser has come to. -/
theorem getNextToken_token (s : JSONParser) :
    s.getNextToken.1 = tokenOf s.getNextToken.2.rest := by
  rw [getNextToken_fst, getNextToken_rest]

section

variable {s : JSONParser} {c close : UInt8} {token : Token} {behind next : Bytes}

/-- Behind the last character of a value the next one is looked at. -/
theorem nextChar_rest_of_cons (hrest : s.rest = c :: behind) : s.nextChar.rest = behind := by
  rw [nextChar_rest, hrest]
  rfl

/-- A comma that the parser passes separates, unless the end follows it. -/
theorem separated_of_comma (hclose : tokenAt close = token) (hrest : s.rest = c :: behind)
    (hcomma : s.nextChar.getNextToken.1 = .listSeparator)
    (htrailing : s.nextChar.getNextToken.2.nextChar.getNextToken.1 ≠ token) :
    Separated close behind s.nextChar.getNextToken.2.nextChar.getNextToken.2.rest := by
  rw [getNextToken_fst, nextChar_rest_of_cons hrest] at hcomma
  obtain ⟨more, hmore⟩ := cons_of_tokenOf (d := 44) (by rw [hcomma]; rfl)
  have hnext : s.nextChar.getNextToken.2.nextChar.rest = more :=
    nextChar_rest_of_cons (by rw [getNextToken_rest, nextChar_rest_of_cons hrest, hmore])
  rw [getNextToken_fst, hnext] at htrailing
  rw [getNextToken_rest, hnext]
  refine .comma hmore fun hhead => htrailing ?_
  obtain ⟨rest, hskip⟩ := List.head?_eq_some_iff.mp hhead
  rw [hskip]
  exact hclose

/-- The end of a list or dictionary separates without being passed. -/
theorem separated_of_close (hclose : tokenChar token = some close) (hrest : s.rest = c :: behind)
    (hnext : s.nextChar.getNextToken.1 = token) :
    Separated close behind s.nextChar.getNextToken.2.rest := by
  rw [getNextToken_fst, nextChar_rest_of_cons hrest] at hnext
  obtain ⟨more, hmore⟩ := cons_of_tokenOf (d := close) (by rw [hnext]; exact hclose)
  rw [getNextToken_rest, nextChar_rest_of_cons hrest, hmore]
  exact .last hmore

/-- What the parser meets where an item is separated from what follows. -/
theorem Separated.tokens (h : Separated close behind next) (hclose : tokenAt close = token)
    (hchar : tokenChar token = some close) (hrest : s.rest = c :: behind) :
    s.nextChar.getNextToken.1 = token ∧ s.nextChar.getNextToken.2.rest = next ∨
      s.nextChar.getNextToken.1 = .listSeparator ∧
        s.nextChar.getNextToken.2.nextChar.getNextToken.1 ≠ token ∧
        s.nextChar.getNextToken.2.nextChar.getNextToken.2.rest = next := by
  have hfirst : s.nextChar.getNextToken.2.rest = skipGap behind := by
    rw [getNextToken_rest, nextChar_rest_of_cons hrest]
  cases h with
  | last closes =>
      refine Or.inl ⟨?_, hfirst.trans closes⟩
      rw [getNextToken_token, hfirst, closes]
      exact hclose
  | @comma more comma trailing =>
      have hsecond : s.nextChar.getNextToken.2.nextChar.getNextToken.2.rest = skipGap more := by
        rw [getNextToken_rest, nextChar_rest_of_cons (hfirst.trans comma)]
      refine Or.inr ⟨?_, ?_, hsecond⟩
      · rw [getNextToken_token, hfirst, comma]
        rfl
      · rw [getNextToken_token, hsecond]
        intro htoken
        obtain ⟨rest, hskip⟩ := cons_of_tokenOf (d := close) (by rw [htoken]; exact hchar)
        exact trailing (by rw [hskip]; rfl)

end

namespace Sound

variable {rounds : ℕ} (h : Sound stringToDouble rounds)

include h

/-- Soundness of a value, with one more round: the cases of the token. -/
theorem parseToken_succ {depth : ℕ} {s s' : JSONParser} {v : Value}
    (hv : JSONParser.parseToken stringToDouble (rounds + 1) depth (tokenOf s.rest) s =
      .ok (v, s')) :
    ∃ c rest, s'.rest = c :: rest ∧ IsSolid c ∧
      Reads stringToDouble depth s.rest (.value v) rest := by
  have hliteral : s.consumeLiteral = .ok (v, s') →
      ∃ c rest, s'.rest = c :: rest ∧ IsSolid c ∧
        Reads stringToDouble depth s.rest (.value v) rest := by
    intro hl
    obtain ⟨word, rest, c, hword, hrest, hs', hc⟩ := literal_of_consumeLiteral hl
    exact ⟨c, rest, hs', hc, by rw [hrest]; exact .literal hword⟩
  generalize tokenOf s.rest = token at hv
  cases token with
  | objectBegin =>
      rw [JSONParser.parseToken] at hv
      obtain ⟨rest, hs', hread⟩ := h.consumeDictionary hv
      exact ⟨125, rest, hs', by unfold IsSolid IsBlank; decide, hread⟩
  | arrayBegin =>
      rw [JSONParser.parseToken] at hv
      obtain ⟨rest, hs', hread⟩ := h.consumeList hv
      exact ⟨93, rest, hs', by unfold IsSolid IsBlank; decide, hread⟩
  | string =>
      rw [JSONParser.parseToken] at hv
      unfold consumeString at hv
      cases hstring : s.consumeStringRaw with
      | error e =>
          rw [hstring] at hv
          cases hv
      | ok p =>
          rw [hstring] at hv
          obtain ⟨rfl, rfl⟩ := hv
          obtain ⟨text, rest, hrest, hs', hread⟩ := readsString_of_consumeStringRaw hstring
          exact ⟨34, rest, hs', by unfold IsSolid IsBlank; decide,
            by rw [hrest]; exact .string hread⟩
  | number =>
      rw [JSONParser.parseToken] at hv
      obtain ⟨numeral, rest, c, hnumeral, hrest, hfollow, hvalue, hs', hc⟩ :=
        isNumeral_of_consumeNumber hv
      exact ⟨c, rest, hs', isSolid_of_digit hc,
        by rw [hrest]; exact .number hnumeral hfollow hvalue⟩
  | boolTrue =>
      rw [JSONParser.parseToken] at hv
      exact hliteral hv
  | boolFalse =>
      rw [JSONParser.parseToken] at hv
      exact hliteral hv
  | null =>
      rw [JSONParser.parseToken] at hv
      exact hliteral hv
  | _ => simp [JSONParser.parseToken] at hv

/-- Soundness of a list, with one more round. -/
theorem consumeList_succ {depth : ℕ} {s s' : JSONParser} {v : Value}
    (hv : JSONParser.consumeList stringToDouble (rounds + 1) depth s = .ok (v, s')) :
    ∃ rest, s'.rest = 93 :: rest ∧ Reads stringToDouble depth s.rest (.value v) rest := by
  rw [JSONParser.consumeList] at hv
  split_ifs at hv with hcurrent hdepth
  obtain ⟨text, htext⟩ := rest_of_current (by decide) (not_not.mp hcurrent)
  dsimp only at hv
  rw [getNextToken_token] at hv
  obtain ⟨items, rest, rfl, hs', hread⟩ := h.listLoop hv
  rw [getNextToken_rest, nextChar_rest_of_cons htext] at hread
  exact ⟨rest, hs', by rw [htext]; exact .list (by omega) hread⟩

/-- Soundness of a dictionary, with one more round. -/
theorem consumeDictionary_succ {depth : ℕ} {s s' : JSONParser} {v : Value}
    (hv : JSONParser.consumeDictionary stringToDouble (rounds + 1) depth s = .ok (v, s')) :
    ∃ rest, s'.rest = 125 :: rest ∧ Reads stringToDouble depth s.rest (.value v) rest := by
  rw [JSONParser.consumeDictionary] at hv
  split_ifs at hv with hcurrent hdepth
  obtain ⟨text, htext⟩ := rest_of_current (by decide) (not_not.mp hcurrent)
  dsimp only at hv
  rw [getNextToken_token] at hv
  obtain ⟨d, rest, rfl, hs', hread⟩ := h.dictionaryLoop hv
  rw [getNextToken_rest, nextChar_rest_of_cons htext] at hread
  exact ⟨rest, hs', by rw [htext]; exact .dictionary (by omega) hread⟩

/-- Soundness of the items of a list, with one more round. -/
theorem listLoop_succ {depth : ℕ} {s s' : JSONParser} {l : List Value} {v : Value}
    (hv : JSONParser.listLoop stringToDouble (rounds + 1) depth (tokenOf s.rest) s l =
      .ok (v, s')) :
    ∃ items rest, v = .list (l ++ items) ∧ s'.rest = 93 :: rest ∧
      Reads stringToDouble depth s.rest (.items items) rest := by
  rw [JSONParser.listLoop] at hv
  by_cases hend : tokenOf s.rest = .arrayEnd
  · rw [if_pos hend] at hv
    obtain ⟨rfl, rfl⟩ := hv
    obtain ⟨rest, hrest⟩ := cons_of_tokenOf (d := 93) (by rw [hend]; rfl)
    exact ⟨[], rest, by rw [List.append_nil], hrest, by rw [hrest]; exact .listEnd⟩
  rw [if_neg hend] at hv
  cases hitem : JSONParser.parseToken stringToDouble rounds depth (tokenOf s.rest) s with
  | error e =>
      rw [hitem] at hv
      cases hv
  | ok p =>
      obtain ⟨item, t⟩ := p
      rw [hitem] at hv
      dsimp only at hv
      obtain ⟨c, behind, hbehind, -, hfirst⟩ := h.parseToken hitem
      split_ifs at hv with hcomma htrailing hclose
      · rw [getNextToken_token t.nextChar.getNextToken.2.nextChar] at hv
        obtain ⟨items, rest, rfl, hs', hread⟩ := h.listLoop hv
        exact ⟨item :: items, rest, by rw [List.append_assoc]; rfl, hs',
          .item hfirst (separated_of_comma tokenAt_arrayEnd hbehind hcomma htrailing) hread⟩
      · rw [getNextToken_token t.nextChar] at hv
        obtain ⟨items, rest, rfl, hs', hread⟩ := h.listLoop hv
        exact ⟨item :: items, rest, by rw [List.append_assoc]; rfl, hs',
          .item hfirst (separated_of_close rfl hbehind (not_not.mp hclose)) hread⟩

/-- Soundness of the entries of a dictionary, with one more round. -/
theorem dictionaryLoop_succ {depth : ℕ} {s s' : JSONParser} {dict : Dictionary} {v : Value}
    (hv : JSONParser.dictionaryLoop stringToDouble (rounds + 1) depth (tokenOf s.rest) s dict =
      .ok (v, s')) :
    ∃ d rest, v = .dictionary (dictionaryOf d dict) ∧ s'.rest = 125 :: rest ∧
      Reads stringToDouble depth s.rest (.entries d) rest := by
  rw [JSONParser.dictionaryLoop] at hv
  by_cases hend : tokenOf s.rest = .objectEnd
  · rw [if_pos hend] at hv
    obtain ⟨rfl, rfl⟩ := hv
    obtain ⟨rest, hrest⟩ := cons_of_tokenOf (d := 125) (by rw [hend]; rfl)
    exact ⟨[], rest, rfl, hrest, by rw [hrest]; exact .dictionaryEnd⟩
  rw [if_neg hend] at hv
  split_ifs at hv with hquote
  cases hkey : s.consumeStringRaw with
  | error e =>
      rw [hkey] at hv
      cases hv
  | ok p =>
      obtain ⟨key, k⟩ := p
      rw [hkey] at hv
      dsimp only at hv
      obtain ⟨text, behindKey, hrest, hk, hname⟩ := readsString_of_consumeStringRaw hkey
      split_ifs at hv with hcolon
      rw [not_not, getNextToken_fst, nextChar_rest_of_cons hk] at hcolon
      obtain ⟨valueText, hvalueText⟩ := cons_of_tokenOf (d := 58) (by rw [hcolon]; rfl)
      have hseparator : k.nextChar.getNextToken.2.nextChar.rest = valueText :=
        nextChar_rest_of_cons (by rw [getNextToken_rest, nextChar_rest_of_cons hk, hvalueText])
      cases hitem : JSONParser.parseToken stringToDouble rounds depth
          k.nextChar.getNextToken.2.nextChar.getNextToken.1
          k.nextChar.getNextToken.2.nextChar.getNextToken.2 with
      | error e =>
          rw [hitem] at hv
          cases hv
      | ok p =>
          obtain ⟨value, t⟩ := p
          rw [hitem] at hv
          dsimp only at hv
          rw [getNextToken_token k.nextChar.getNextToken.2.nextChar] at hitem
          obtain ⟨c, behind, hbehind, -, hfirst⟩ := h.parseToken hitem
          rw [getNextToken_rest, hseparator] at hfirst
          split_ifs at hv with hcomma htrailing hclose
          · rw [getNextToken_token t.nextChar.getNextToken.2.nextChar] at hv
            obtain ⟨d, rest, rfl, hs', hread⟩ := h.dictionaryLoop hv
            refine ⟨(key, value) :: d, rest, rfl, hs', ?_⟩
            rw [hrest]
            exact .entry hname hvalueText hfirst
              (separated_of_comma tokenAt_objectEnd hbehind hcomma htrailing) hread
          · rw [getNextToken_token t.nextChar] at hv
            obtain ⟨d, rest, rfl, hs', hread⟩ := h.dictionaryLoop hv
            refine ⟨(key, value) :: d, rest, rfl, hs', ?_⟩
            rw [hrest]
            exact .entry hname hvalueText hfirst
              (separated_of_close rfl hbehind (not_not.mp hclose)) hread

end Sound

/-- The parser accepts nothing but the language. -/
theorem sound (rounds : ℕ) : Sound stringToDouble rounds := by
  induction rounds with
  | zero =>
      constructor <;> intros <;>
        simp_all [parseToken, consumeDictionary, dictionaryLoop, consumeList, listLoop]
  | succ rounds ih =>
      exact ⟨ih.parseToken_succ, ih.consumeDictionary_succ, ih.dictionaryLoop_succ,
        ih.consumeList_succ, ih.listLoop_succ⟩

/-! ## The language is accepted -/

/-- A word is consumed where the text has it. -/
theorem consumeLiteral_of_literal {s : JSONParser} {word rest : Bytes} {v : Value}
    (hword : (word, v) ∈ literals) (hrest : s.rest = word ++ rest) :
    ∃ s' c, s.consumeLiteral = .ok (v, s') ∧ s'.rest = c :: rest ∧ IsSolid c := by
  have hconsume : ∀ (init : Bytes) (c : UInt8), s.rest = (init ++ [c]) ++ rest →
      ∃ s', s.consumeWord (init ++ [c]) v = .ok (v, s') ∧ s'.rest = c :: rest := by
    intro init c h
    refine ⟨s.nextNChars ((init ++ [c]).length - 1), ?_, by rw [nextNChars_rest, h]; simp⟩
    unfold consumeWord
    rw [if_neg]
    rw [h, List.take_left, not_or, not_not, List.length_append]
    exact ⟨by omega, rfl⟩
  simp only [literals, List.mem_cons, List.not_mem_nil, or_false, Prod.mk.injEq] at hword
  rcases hword with ⟨rfl, rfl⟩ | ⟨rfl, rfl⟩ | ⟨rfl, rfl⟩
  · obtain ⟨s', hs', hlast⟩ := hconsume (asciiText "tru") 101 hrest
    have hcurrent : s.current = 116 := current_of_head hrest
    refine ⟨s', 101, ?_, hlast, by unfold IsSolid IsBlank; decide⟩
    rw [consumeLiteral, hcurrent, if_pos rfl]
    exact hs'
  · obtain ⟨s', hs', hlast⟩ := hconsume (asciiText "fals") 101 hrest
    have hcurrent : s.current = 102 := current_of_head hrest
    refine ⟨s', 101, ?_, hlast, by unfold IsSolid IsBlank; decide⟩
    rw [consumeLiteral, hcurrent, if_neg (by decide), if_pos rfl]
    exact hs'
  · obtain ⟨s', hs', hlast⟩ := hconsume (asciiText "nul") 108 hrest
    have hcurrent : s.current = 110 := current_of_head hrest
    refine ⟨s', 108, ?_, hlast, by unfold IsSolid IsBlank; decide⟩
    rw [consumeLiteral, hcurrent, if_neg (by decide), if_neg (by decide), if_pos rfl]
    exact hs'

/-- The parser makes of a text what it stands for, with enough rounds. -/
def Parses (stringToDouble : Bytes → Option ℚ) (depth : ℕ) (text : Bytes) (phrase : Phrase)
    (rest : Bytes) : Prop :=
  match phrase with
  | .value v => ∀ rounds s, 3 * text.length + 1 ≤ rounds → s.rest = text →
      ∃ s' c, parseToken stringToDouble rounds depth (tokenOf text) s = .ok (v, s') ∧
        s'.rest = c :: rest ∧ IsSolid c
  | .items l => ∀ rounds s list, 3 * text.length + 2 ≤ rounds → s.rest = text →
      ∃ s', listLoop stringToDouble rounds depth (tokenOf text) s list =
        .ok (.list (list ++ l), s') ∧ s'.rest = 93 :: rest
  | .entries d => ∀ rounds s dict, 3 * text.length + 2 ≤ rounds → s.rest = text →
      ∃ s', dictionaryLoop stringToDouble rounds depth (tokenOf text) s dict =
        .ok (.dictionary (dictionaryOf d dict), s') ∧ s'.rest = 125 :: rest

/-- A value does not begin with a closing bracket. -/
theorem not_closing_of_parseToken {rounds depth : ℕ} {token : Token} {s s' : JSONParser}
    {v : Value} (h : parseToken stringToDouble rounds depth token s = .ok (v, s')) :
    token ≠ .arrayEnd := by
  rintro rfl
  cases rounds <;> simp [parseToken] at h

/-- A list is parsed if its items are. -/
theorem parses_list {depth : ℕ} {text rest : Bytes} {l : List Value}
    (hnesting : depth + 1 < kStackMaxDepth)
    (ih : Parses stringToDouble (depth + 1) (skipGap text) (.items l) rest) :
    Parses stringToDouble depth (91 :: text) (.value (.list l)) rest := by
  intro rounds s hrounds hrest
  rw [List.length_cons] at hrounds
  obtain ⟨rounds, rfl⟩ : ∃ k, rounds = k + 2 := ⟨rounds - 2, by omega⟩
  have hnext : s.nextChar.getNextToken.2.rest = skipGap text := by
    rw [getNextToken_rest, nextChar_rest_of_cons hrest]
  have hgap := skipGap_length_le text
  obtain ⟨s', hloop, hs'⟩ := ih rounds s.nextChar.getNextToken.2 [] (by omega) hnext
  refine ⟨s', 93, ?_, hs', by unfold IsSolid IsBlank; decide⟩
  have htoken : tokenOf (91 :: text) = .arrayBegin := rfl
  rw [htoken, parseToken, consumeList, if_neg (not_not.mpr (current_of_head hrest)),
    if_neg (by omega)]
  dsimp only
  rw [getNextToken_token, hnext]
  exact hloop

/-- A dictionary is parsed if its entries are. -/
theorem parses_dictionary {depth : ℕ} {text rest : Bytes} {d : List (Bytes × Value)}
    (hnesting : depth + 1 < kStackMaxDepth)
    (ih : Parses stringToDouble (depth + 1) (skipGap text) (.entries d) rest) :
    Parses stringToDouble depth (123 :: text) (.value (.dictionary (dictionaryOf d []))) rest := by
  intro rounds s hrounds hrest
  rw [List.length_cons] at hrounds
  obtain ⟨rounds, rfl⟩ : ∃ k, rounds = k + 2 := ⟨rounds - 2, by omega⟩
  have hnext : s.nextChar.getNextToken.2.rest = skipGap text := by
    rw [getNextToken_rest, nextChar_rest_of_cons hrest]
  have hgap := skipGap_length_le text
  obtain ⟨s', hloop, hs'⟩ := ih rounds s.nextChar.getNextToken.2 [] (by omega) hnext
  refine ⟨s', 125, ?_, hs', by unfold IsSolid IsBlank; decide⟩
  have htoken : tokenOf (123 :: text) = .objectBegin := rfl
  rw [htoken, parseToken, consumeDictionary, if_neg (not_not.mpr (current_of_head hrest)),
    if_neg (by omega)]
  dsimp only
  rw [getNextToken_token, hnext]
  exact hloop

/-- An item and those behind it are parsed, each behind its separator. -/
theorem parses_item {depth : ℕ} {text behind next rest : Bytes} {v : Value} {l : List Value}
    (hshort : behind.length < text.length) (hseparator : Separated 93 behind next)
    (hfirst : Parses stringToDouble depth text (.value v) behind)
    (hothers : Parses stringToDouble depth next (.items l) rest) :
    Parses stringToDouble depth text (.items (v :: l)) rest := by
  intro rounds s list hrounds hrest
  obtain ⟨rounds, rfl⟩ : ∃ k, rounds = k + 1 := ⟨rounds - 1, by omega⟩
  have hlength := hseparator.length_le
  obtain ⟨t, c, hitem, ht, -⟩ := hfirst rounds s (by omega) hrest
  have happend : list ++ v :: l = list ++ [v] ++ l := by rw [List.append_assoc]; rfl
  rw [listLoop, if_neg (not_closing_of_parseToken hitem), hitem, happend]
  dsimp only
  rcases hseparator.tokens tokenAt_arrayEnd rfl ht with
    ⟨hclose, hnext⟩ | ⟨hcomma, htrailing, hnext⟩
  · obtain ⟨s', hloop, hs'⟩ := hothers rounds _ (list ++ [v]) (by omega) hnext
    refine ⟨s', ?_, hs'⟩
    rw [← hnext, ← getNextToken_token] at hloop
    rw [hclose] at hloop ⊢
    rw [if_neg (by decide), if_neg (by decide)]
    exact hloop
  · obtain ⟨s', hloop, hs'⟩ := hothers rounds _ (list ++ [v]) (by omega) hnext
    refine ⟨s', ?_, hs'⟩
    rw [← hnext, ← getNextToken_token] at hloop
    rw [if_pos hcomma, if_neg htrailing]
    exact hloop

/-- An entry and those behind it are parsed: name, colon, value, separator. -/
theorem parses_entry {depth : ℕ} {text key behindKey valueText behind next rest : Bytes}
    {v : Value} {d : List (Bytes × Value)} (hname : ReadsString text key behindKey)
    (hcolon : skipGap behindKey = 58 :: valueText)
    (hshort : behind.length < (skipGap valueText).length)
    (hseparator : Separated 125 behind next)
    (hfirst : Parses stringToDouble depth (skipGap valueText) (.value v) behind)
    (hothers : Parses stringToDouble depth next (.entries d) rest) :
    Parses stringToDouble depth (34 :: text) (.entries ((key, v) :: d)) rest := by
  intro rounds s dict hrounds hrest
  obtain ⟨rounds, rfl⟩ : ∃ k, rounds = k + 1 := ⟨rounds - 1, by omega⟩
  have hlength := hseparator.length_le
  have hkeyLength := hname.shorter
  have hgap := skipGap_length_le behindKey
  have hgap' := skipGap_length_le valueText
  rw [hcolon, List.length_cons] at hgap
  rw [List.length_cons] at hrounds
  obtain ⟨k, hkey, hk⟩ := consumeStringRaw_of_readsString hrest hname
  have hpair : k.nextChar.getNextToken.2.rest = 58 :: valueText := by
    rw [getNextToken_rest, nextChar_rest_of_cons hk, hcolon]
  have hpairToken : k.nextChar.getNextToken.1 = .objectPairSeparator := by
    rw [getNextToken_token, hpair]
    rfl
  have hvalue : k.nextChar.getNextToken.2.nextChar.getNextToken.2.rest = skipGap valueText := by
    rw [getNextToken_rest, nextChar_rest_of_cons hpair]
  obtain ⟨t, c, hitem, ht, -⟩ := hfirst rounds _ (by omega) hvalue
  rw [← hvalue, ← getNextToken_token] at hitem
  have htoken : tokenOf (34 :: text) = .string := rfl
  rw [htoken, dictionaryLoop, if_neg (by decide), if_neg (by decide), hkey]
  dsimp only
  rw [if_neg (not_not.mpr hpairToken), hitem]
  dsimp only
  rcases hseparator.tokens tokenAt_objectEnd rfl ht with
    ⟨hclose, hnext⟩ | ⟨hcomma, htrailing, hnext⟩
  · obtain ⟨s', hloop, hs'⟩ :=
      hothers rounds _ (dict.setWithoutPathExpansion key v) (by omega) hnext
    refine ⟨s', ?_, hs'⟩
    rw [← hnext, ← getNextToken_token] at hloop
    rw [hclose] at hloop ⊢
    rw [if_neg (by decide), if_neg (by decide)]
    exact hloop
  · obtain ⟨s', hloop, hs'⟩ :=
      hothers rounds _ (dict.setWithoutPathExpansion key v) (by omega) hnext
    refine ⟨s', ?_, hs'⟩
    rw [← hnext, ← getNextToken_token] at hloop
    rw [if_pos hcomma, if_neg htrailing]
    exact hloop

/-- The three words are parsed. -/
theorem parses_literal {depth : ℕ} {word rest : Bytes} {v : Value}
    (hword : (word, v) ∈ literals) :
    Parses stringToDouble depth (word ++ rest) (.value v) rest := by
  intro rounds s hrounds hrest
  obtain ⟨rounds, rfl⟩ : ∃ k, rounds = k + 1 := ⟨rounds - 1, by omega⟩
  obtain ⟨s', c, hliteral, hs', hc⟩ := consumeLiteral_of_literal hword hrest
  refine ⟨s', c, ?_, hs', hc⟩
  simp only [literals, List.mem_cons, List.not_mem_nil, or_false, Prod.mk.injEq] at hword
  rcases hword with ⟨rfl, -⟩ | ⟨rfl, -⟩ | ⟨rfl, -⟩
  · have htoken : tokenOf (asciiText "true" ++ rest) = .boolTrue := rfl
    rw [htoken, parseToken]
    exact hliteral
  · have htoken : tokenOf (asciiText "false" ++ rest) = .boolFalse := rfl
    rw [htoken, parseToken]
    exact hliteral
  · have htoken : tokenOf (asciiText "null" ++ rest) = .null := rfl
    rw [htoken, parseToken]
    exact hliteral

/-- The parser makes of every text of the language what it stands for. -/
theorem Reads.parses {depth : ℕ} {text rest : Bytes} {phrase : Phrase}
    (h : Reads stringToDouble depth text phrase rest) :
    Parses stringToDouble depth text phrase rest := by
  induction h with
  | @string depth text string rest characters =>
      intro rounds s hrounds hrest
      obtain ⟨rounds, rfl⟩ : ∃ k, rounds = k + 1 := ⟨rounds - 1, by omega⟩
      obtain ⟨s', hstring, hs'⟩ := consumeStringRaw_of_readsString hrest characters
      have htoken : tokenOf (34 :: text) = .string := rfl
      refine ⟨s', 34, ?_, hs', by unfold IsSolid IsBlank; decide⟩
      rw [htoken, parseToken, consumeString, hstring]
  | @number depth numeral rest v hnumeral hfollow hvalue =>
      intro rounds s hrounds hrest
      obtain ⟨rounds, rfl⟩ : ∃ k, rounds = k + 1 := ⟨rounds - 1, by omega⟩
      obtain ⟨s', c, hnumber, hs', hc⟩ :=
        consumeNumber_of_isNumeral hnumeral hrest hfollow hvalue
      refine ⟨s', c, ?_, hs', isSolid_of_digit hc⟩
      rw [tokenOf_numeral hnumeral, parseToken]
      exact hnumber
  | literal word_ => exact parses_literal word_
  | list nesting _ ih => exact parses_list nesting ih
  | dictionary nesting _ ih => exact parses_dictionary nesting ih
  | @listEnd depth rest =>
      intro rounds s list hrounds hrest
      obtain ⟨rounds, rfl⟩ : ∃ k, rounds = k + 1 := ⟨rounds - 1, by omega⟩
      have htoken : tokenOf (93 :: rest) = .arrayEnd := rfl
      rw [htoken, listLoop, if_pos rfl, List.append_nil]
      exact ⟨s, rfl, hrest⟩
  | item first separator _ ih ih' => exact parses_item first.shorter separator ih ih'
  | @dictionaryEnd depth rest =>
      intro rounds s dict hrounds hrest
      obtain ⟨rounds, rfl⟩ : ∃ k, rounds = k + 1 := ⟨rounds - 1, by omega⟩
      have htoken : tokenOf (125 :: rest) = .objectEnd := rfl
      rw [htoken, dictionaryLoop, if_pos rfl]
      exact ⟨s, rfl, hrest⟩
  | entry name colon first separator _ ih ih' =>
      exact parses_entry name colon first.shorter separator ih ih'

/-! ## A text is read in one way -/

/-- A value is read in one way. -/
theorem Reads.unique {depth : ℕ} {text rest rest' : Bytes} {v v' : Value}
    (h : Reads stringToDouble depth text (.value v) rest)
    (h' : Reads stringToDouble depth text (.value v') rest') : v = v' ∧ rest = rest' := by
  obtain ⟨s, c, hs, hrest, -⟩ := h.parses (3 * text.length + 1) { rest := text } le_rfl rfl
  obtain ⟨s', c', hs', hrest', -⟩ := h'.parses (3 * text.length + 1) { rest := text } le_rfl rfl
  rw [hs] at hs'
  obtain ⟨rfl, rfl⟩ := Prod.mk.inj (Except.ok.inj hs')
  rw [hrest] at hrest'
  exact ⟨rfl, (List.cons.inj hrest').2⟩

/-- The token a value begins with. -/
theorem Reads.token {depth : ℕ} {text rest : Bytes} {v : Value}
    (h : Reads stringToDouble depth text (.value v) rest) :
    tokenOf text ≠ .arrayEnd ∧ tokenOf text ≠ .objectEnd := by
  obtain ⟨s, c, hs, -, -⟩ := h.parses (3 * text.length + 1) { rest := text } le_rfl rfl
  constructor
  · intro htoken
    rw [htoken] at hs
    simp [parseToken] at hs
  · intro htoken
    rw [htoken] at hs
    simp [parseToken] at hs

/-- A text is separated in one way only. -/
theorem Separated.unique {close : UInt8} {text next next' : Bytes} (hclose : close ≠ 44)
    (h : Separated close text next) (h' : Separated close text next') : next = next' := by
  cases h with
  | last closes =>
      cases h' with
      | last closes' => rw [← closes, ← closes']
      | comma comma _ =>
          rw [closes] at comma
          exact absurd (List.cons.inj comma).1 hclose
  | comma comma _ =>
      cases h' with
      | last closes =>
          rw [comma] at closes
          exact absurd (List.cons.inj closes).1.symm hclose
      | comma comma' _ =>
          rw [comma] at comma'
          rw [(List.cons.inj comma').2]

/-- The words begin with their letter. -/
theorem tokenOf_literal {word : Bytes} {v : Value} (h : (word, v) ∈ literals) (rest : Bytes) :
    tokenOf (word ++ rest) = .boolTrue ∨ tokenOf (word ++ rest) = .boolFalse ∨
      tokenOf (word ++ rest) = .null := by
  simp only [literals, List.mem_cons, List.not_mem_nil, or_false, Prod.mk.injEq] at h
  rcases h with ⟨rfl, -⟩ | ⟨rfl, -⟩ | ⟨rfl, -⟩
  · exact Or.inl rfl
  · exact Or.inr (Or.inl rfl)
  · exact Or.inr (Or.inr rfl)

section

variable {depth : ℕ} {text rest : Bytes} {v : Value}

/-- A value that begins with a quote is a string. -/
theorem reads_quote_iff : Reads stringToDouble depth (34 :: text) (.value v) rest ↔
    ∃ string, v = .string string ∧ ReadsString text string rest := by
  constructor
  · intro h
    generalize htext : 34 :: text = text' at h
    have htoken : tokenOf text' = .string := by rw [← htext]; rfl
    cases h with
    | string characters =>
        cases htext
        exact ⟨_, rfl, characters⟩
    | number numeral_ =>
        rw [tokenOf_numeral numeral_] at htoken
        cases htoken
    | literal word_ =>
        rcases tokenOf_literal word_ rest with h | h | h <;> rw [h] at htoken <;> cases htoken
    | list => cases htext
    | dictionary => cases htext
  · rintro ⟨string, rfl, h⟩
    exact .string h

/-- A value that begins with a bracket is a list. -/
theorem reads_bracket_iff : Reads stringToDouble depth (91 :: text) (.value v) rest ↔
    depth + 1 < kStackMaxDepth ∧ ∃ l, v = .list l ∧
      Reads stringToDouble (depth + 1) (skipGap text) (.items l) rest := by
  constructor
  · intro h
    generalize htext : 91 :: text = text' at h
    have htoken : tokenOf text' = .arrayBegin := by rw [← htext]; rfl
    cases h with
    | string => cases htext
    | number numeral_ =>
        rw [tokenOf_numeral numeral_] at htoken
        cases htoken
    | literal word_ =>
        rcases tokenOf_literal word_ rest with h | h | h <;> rw [h] at htoken <;> cases htoken
    | list nesting body =>
        cases htext
        exact ⟨nesting, _, rfl, body⟩
    | dictionary => cases htext
  · rintro ⟨nesting, l, rfl, body⟩
    exact .list nesting body

/-- A value that begins with a brace is a dictionary. -/
theorem reads_brace_iff : Reads stringToDouble depth (123 :: text) (.value v) rest ↔
    depth + 1 < kStackMaxDepth ∧ ∃ d, v = .dictionary (dictionaryOf d []) ∧
      Reads stringToDouble (depth + 1) (skipGap text) (.entries d) rest := by
  constructor
  · intro h
    generalize htext : 123 :: text = text' at h
    have htoken : tokenOf text' = .objectBegin := by rw [← htext]; rfl
    cases h with
    | string => cases htext
    | number numeral_ =>
        rw [tokenOf_numeral numeral_] at htoken
        cases htoken
    | literal word_ =>
        rcases tokenOf_literal word_ rest with h | h | h <;> rw [h] at htoken <;> cases htoken
    | list => cases htext
    | dictionary nesting body =>
        cases htext
        exact ⟨nesting, _, rfl, body⟩
  · rintro ⟨nesting, d, rfl, body⟩
    exact .dictionary nesting body

/-- A text that begins with the end of a list has no items. -/
theorem reads_listEnd_iff {l : List Value} :
    Reads stringToDouble depth (93 :: text) (.items l) rest ↔ l = [] ∧ rest = text := by
  constructor
  · intro h
    generalize htext : 93 :: text = text' at h
    have htoken : tokenOf text' = .arrayEnd := by rw [← htext]; rfl
    cases h with
    | listEnd =>
        cases htext
        exact ⟨rfl, rfl⟩
    | item first => exact absurd htoken first.token.1
  · rintro ⟨rfl, rfl⟩
    exact .listEnd

/-- A text that begins with the end of a dictionary has no entries. -/
theorem reads_dictionaryEnd_iff {d : List (Bytes × Value)} :
    Reads stringToDouble depth (125 :: text) (.entries d) rest ↔ d = [] ∧ rest = text := by
  constructor
  · intro h
    generalize htext : 125 :: text = text' at h
    cases h with
    | dictionaryEnd =>
        cases htext
        exact ⟨rfl, rfl⟩
    | entry => cases htext
  · rintro ⟨rfl, rfl⟩
    exact .dictionaryEnd

end

/-! ## The rounds are never used up -/

/-- A number needs no rounds. -/
theorem consumeNumber_ne_outOfRounds (s : JSONParser) :
    s.consumeNumber stringToDouble ≠ .error .outOfRounds := by
  unfold consumeNumber
  dsimp only
  split_ifs
  · exact fun h => nomatch h
  · exact fun h => nomatch h
  · exact fun h => nomatch h
  · split <;> exact fun h => nomatch h

/-- A word needs no rounds. -/
theorem consumeLiteral_ne_outOfRounds (s : JSONParser) :
    s.consumeLiteral ≠ .error .outOfRounds := by
  unfold consumeLiteral consumeWord
  split_ifs <;> exact fun h => nomatch h

/-- Rounds that are enough for the text that is left. -/
structure Enough (stringToDouble : Bytes → Option ℚ) (rounds : ℕ) : Prop where
  parseToken : ∀ {depth s}, 3 * s.rest.length + 1 ≤ rounds →
    parseToken stringToDouble rounds depth (tokenOf s.rest) s ≠ .error .outOfRounds
  consumeDictionary : ∀ {depth s}, s.rest ≠ [] → 3 * s.rest.length ≤ rounds →
    consumeDictionary stringToDouble rounds depth s ≠ .error .outOfRounds
  dictionaryLoop : ∀ {depth s dict}, 3 * s.rest.length + 2 ≤ rounds →
    dictionaryLoop stringToDouble rounds depth (tokenOf s.rest) s dict ≠ .error .outOfRounds
  consumeList : ∀ {depth s}, s.rest ≠ [] → 3 * s.rest.length ≤ rounds →
    consumeList stringToDouble rounds depth s ≠ .error .outOfRounds
  listLoop : ∀ {depth s l}, 3 * s.rest.length + 2 ≤ rounds →
    listLoop stringToDouble rounds depth (tokenOf s.rest) s l ≠ .error .outOfRounds

/-- Looking for a token does not make the text longer. -/
theorem getNextToken_length_le (s : JSONParser) :
    s.getNextToken.2.rest.length ≤ s.rest.length := by
  rw [getNextToken_rest]
  exact skipGap_length_le _

/-- Passing a character does not make the text longer. -/
theorem nextChar_length_le (s : JSONParser) : s.nextChar.rest.length ≤ s.rest.length := by
  rw [nextChar_rest, List.length_drop]
  omega

/-- Behind a value the text is shorter, also behind the separator. -/
theorem next_length {rounds depth : ℕ} {s t : JSONParser} {v : Value}
    (hitem : parseToken stringToDouble rounds depth (tokenOf s.rest) s = .ok (v, t)) :
    t.nextChar.getNextToken.2.rest.length < s.rest.length ∧
      t.nextChar.getNextToken.2.nextChar.getNextToken.2.rest.length < s.rest.length := by
  obtain ⟨c, behind, hbehind, -, hfirst⟩ := (sound rounds).parseToken hitem
  have hshort := hfirst.shorter
  have hnext := getNextToken_length_le t.nextChar
  have hnext' := getNextToken_length_le t.nextChar.getNextToken.2.nextChar
  have hchar := nextChar_length_le t.nextChar.getNextToken.2
  rw [nextChar_rest_of_cons hbehind] at hnext
  exact ⟨by omega, by omega⟩

namespace Enough

variable {rounds : ℕ} (h : Enough stringToDouble rounds)

include h

/-- Three rounds for each character suffice for a value. -/
theorem parseToken_succ {depth : ℕ} {s : JSONParser}
    (hrounds : 3 * s.rest.length + 1 ≤ rounds + 1) :
    JSONParser.parseToken stringToDouble (rounds + 1) depth (tokenOf s.rest) s ≠
      .error .outOfRounds := by
  cases htoken : tokenOf s.rest with
  | objectBegin =>
      rw [JSONParser.parseToken]
      exact h.consumeDictionary (by rintro hnil; rw [hnil] at htoken; cases htoken) (by omega)
  | arrayBegin =>
      rw [JSONParser.parseToken]
      exact h.consumeList (by rintro hnil; rw [hnil] at htoken; cases htoken) (by omega)
  | string =>
      rw [JSONParser.parseToken, consumeString]
      have hstring := consumeStringRaw_ne_outOfRounds s
      split
      · rename_i e he
        rw [he] at hstring
        exact fun hv => hstring (congrArg Except.error (Except.error.inj hv))
      · exact fun hv => nomatch hv
  | number =>
      rw [JSONParser.parseToken]
      exact consumeNumber_ne_outOfRounds s
  | boolTrue =>
      rw [JSONParser.parseToken]
      exact consumeLiteral_ne_outOfRounds s
  | boolFalse =>
      rw [JSONParser.parseToken]
      exact consumeLiteral_ne_outOfRounds s
  | null =>
      rw [JSONParser.parseToken]
      exact consumeLiteral_ne_outOfRounds s
  | _ => simp [JSONParser.parseToken, reportError]

/-- Three rounds for each character suffice for a list. -/
theorem consumeList_succ {depth : ℕ} {s : JSONParser} (hne : s.rest ≠ [])
    (hrounds : 3 * s.rest.length ≤ rounds + 1) :
    JSONParser.consumeList stringToDouble (rounds + 1) depth s ≠ .error .outOfRounds := by
  have hpos := List.length_pos_iff.mpr hne
  have hnext := getNextToken_length_le s.nextChar
  rw [nextChar_rest, List.length_drop] at hnext
  rw [JSONParser.consumeList]
  split_ifs
  · exact fun hv => nomatch hv
  · exact fun hv => nomatch hv
  · dsimp only
    rw [getNextToken_token]
    exact h.listLoop (by omega)

/-- Three rounds for each character suffice for a dictionary. -/
theorem consumeDictionary_succ {depth : ℕ} {s : JSONParser} (hne : s.rest ≠ [])
    (hrounds : 3 * s.rest.length ≤ rounds + 1) :
    JSONParser.consumeDictionary stringToDouble (rounds + 1) depth s ≠ .error .outOfRounds := by
  have hpos := List.length_pos_iff.mpr hne
  have hnext := getNextToken_length_le s.nextChar
  rw [nextChar_rest, List.length_drop] at hnext
  rw [JSONParser.consumeDictionary]
  split_ifs
  · exact fun hv => nomatch hv
  · exact fun hv => nomatch hv
  · dsimp only
    rw [getNextToken_token]
    exact h.dictionaryLoop (by omega)

/-- Three rounds for each character suffice for the items of a list. -/
theorem listLoop_succ {depth : ℕ} {s : JSONParser} {l : List Value}
    (hrounds : 3 * s.rest.length + 2 ≤ rounds + 1) :
    JSONParser.listLoop stringToDouble (rounds + 1) depth (tokenOf s.rest) s l ≠
      .error .outOfRounds := by
  rw [JSONParser.listLoop]
  split_ifs
  · exact fun hv => nomatch hv
  have hparse : JSONParser.parseToken stringToDouble rounds depth (tokenOf s.rest) s ≠
      .error .outOfRounds := h.parseToken (by omega)
  cases hitem : JSONParser.parseToken stringToDouble rounds depth (tokenOf s.rest) s with
  | error e =>
      rw [hitem] at hparse
      exact hparse
  | ok p =>
      obtain ⟨item, t⟩ := p
      obtain ⟨hnext, hnext'⟩ := next_length hitem
      dsimp only
      split_ifs
      · exact fun hv => nomatch hv
      · rw [getNextToken_token t.nextChar.getNextToken.2.nextChar]
        exact h.listLoop (by omega)
      · exact fun hv => nomatch hv
      · rw [getNextToken_token t.nextChar]
        exact h.listLoop (by omega)

/-- Three rounds for each character suffice for the entries of a dictionary. -/
theorem dictionaryLoop_succ {depth : ℕ} {s : JSONParser} {dict : Dictionary}
    (hrounds : 3 * s.rest.length + 2 ≤ rounds + 1) :
    JSONParser.dictionaryLoop stringToDouble (rounds + 1) depth (tokenOf s.rest) s dict ≠
      .error .outOfRounds := by
  rw [JSONParser.dictionaryLoop]
  split_ifs
  · exact fun hv => nomatch hv
  · exact fun hv => nomatch hv
  have hstring := consumeStringRaw_ne_outOfRounds s
  cases hkey : s.consumeStringRaw with
  | error e =>
      rw [hkey] at hstring
      exact fun hv => hstring (congrArg Except.error (Except.error.inj hv))
  | ok p =>
      obtain ⟨key, k⟩ := p
      dsimp only
      split_ifs
      · exact fun hv => nomatch hv
      obtain ⟨text, behindKey, hrest, hk, hname⟩ := readsString_of_consumeStringRaw hkey
      have hshort := hname.shorter
      have hcolon := getNextToken_length_le k.nextChar
      have hvalue := getNextToken_length_le k.nextChar.getNextToken.2.nextChar
      have hchar := nextChar_length_le k.nextChar.getNextToken.2
      rw [nextChar_rest_of_cons hk] at hcolon
      rw [hrest, List.length_cons] at hrounds
      rw [getNextToken_token k.nextChar.getNextToken.2.nextChar]
      have hparse : JSONParser.parseToken stringToDouble rounds depth
          (tokenOf k.nextChar.getNextToken.2.nextChar.getNextToken.2.rest)
          k.nextChar.getNextToken.2.nextChar.getNextToken.2 ≠ .error .outOfRounds :=
        h.parseToken (by omega)
      cases hitem : JSONParser.parseToken stringToDouble rounds depth
          (tokenOf k.nextChar.getNextToken.2.nextChar.getNextToken.2.rest)
          k.nextChar.getNextToken.2.nextChar.getNextToken.2 with
      | error e =>
          rw [hitem] at hparse
          exact hparse
      | ok p =>
          obtain ⟨item, t⟩ := p
          obtain ⟨hnext, hnext'⟩ := next_length hitem
          dsimp only
          split_ifs
          · exact fun hv => nomatch hv
          · rw [getNextToken_token t.nextChar.getNextToken.2.nextChar]
            exact h.dictionaryLoop (by omega)
          · exact fun hv => nomatch hv
          · rw [getNextToken_token t.nextChar]
            exact h.dictionaryLoop (by omega)

end Enough

/-- The parser never asks for more than three rounds for a character and one to begin with. -/
theorem enough (rounds : ℕ) : Enough stringToDouble rounds := by
  induction rounds with
  | zero =>
      refine ⟨fun h => absurd h (by omega), fun hne h => ?_, fun h => absurd h (by omega),
        fun hne h => ?_, fun h => absurd h (by omega)⟩
      · exact absurd (List.length_pos_iff.mpr hne) (by omega)
      · exact absurd (List.length_pos_iff.mpr hne) (by omega)
  | succ rounds ih =>
      exact ⟨ih.parseToken_succ, ih.consumeDictionary_succ, ih.dictionaryLoop_succ,
        ih.consumeList_succ, ih.listLoop_succ⟩

/-! ## Whole texts -/

/-- The parser begins behind the byte order mark. -/
theorem start_rest (input : Bytes) : (start input).rest = withoutMark input := by
  unfold start withoutMark
  dsimp only
  split_ifs <;> rfl

/-- A byte order mark stands at the beginning. -/
theorem withoutMark_suffix (input : Bytes) : withoutMark input <:+ input := by
  unfold withoutMark
  split_ifs
  · exact List.drop_suffix 3 input
  · exact List.suffix_rfl

/-- Dropping the mark does not make the text longer. -/
theorem withoutMark_length_le (input : Bytes) : (withoutMark input).length ≤ input.length :=
  (withoutMark_suffix input).length_le

/-- The rounds `parse` begins with. -/
theorem first_rounds (input : Bytes) :
    3 * (start input).getNextToken.2.rest.length + 1 ≤ 3 * input.length + 1 := by
  have hfirst := getNextToken_length_le (start input)
  have hmark := withoutMark_length_le input
  rw [start_rest] at hfirst
  omega

/-- The end of a text is found behind the last character of its value. -/
theorem end_of_root {s : JSONParser} {c : UInt8} {rest : Bytes} (hs : s.rest = c :: rest)
    (hc : IsSolid c) :
    s.getNextToken.1 ≠ .endOfInput ∧ s.getNextToken.2.rest ≠ [] ∧
      (s.getNextToken.2.nextChar.getNextToken.1 = .endOfInput ↔ skipGap rest = []) := by
  have hgap : s.getNextToken.2.rest = c :: rest := by
    rw [getNextToken_rest, hs, skipGap_solid hc]
  refine ⟨?_, by rw [hgap]; exact List.cons_ne_nil _ _, ?_⟩
  · rw [getNextToken_token, hgap]
    exact tokenAt_ne_endOfInput c
  · rw [getNextToken_fst, nextChar_rest_of_cons hgap, tokenOf_eq_endOfInput]

/-- What `parse` makes of a text whose value has been parsed. -/
theorem parse_of_root {input : Bytes} {v : Value} {s : JSONParser} {c : UInt8} {rest : Bytes}
    (hroot : parseToken stringToDouble (3 * input.length + 1) 0 (start input).getNextToken.1
      (start input).getNextToken.2 = .ok (v, s)) (hs : s.rest = c :: rest) (hc : IsSolid c) :
    parse stringToDouble input = if skipGap rest = [] then .ok v else
      .error (s.getNextToken.2.nextChar.getNextToken.2.reportError
        .unexpectedDataAfterRoot 1) := by
  obtain ⟨hfirst, hne, hlast⟩ := end_of_root hs hc
  unfold parse
  dsimp only
  rw [hroot]
  dsimp only
  rw [if_neg hfirst, if_neg hne]
  simp only [hlast]

/-- **The parser accepts the language, and nothing else.** -/
theorem parse_eq_ok_iff {input : Bytes} {v : Value} :
    parse stringToDouble input = .ok v ↔ Accepted stringToDouble input v := by
  have hstart : (start input).getNextToken.2.rest = skipGap (withoutMark input) := by
    rw [getNextToken_rest, start_rest]
  constructor
  · intro h
    cases hroot : parseToken stringToDouble (3 * input.length + 1) 0 (start input).getNextToken.1
        (start input).getNextToken.2 with
    | error e =>
        unfold parse at h
        dsimp only at h
        rw [hroot] at h
        cases h
    | ok p =>
        obtain ⟨root, s⟩ := p
        obtain ⟨c, rest, hs, hc, hread⟩ :=
          (sound _).parseToken (by rwa [getNextToken_token] at hroot)
        rw [parse_of_root hroot hs hc] at h
        split_ifs at h with hend
        cases h
        exact ⟨rest, by rwa [hstart] at hread, hend⟩
  · rintro ⟨rest, hread, hend⟩
    obtain ⟨s, c, hroot, hs, hc⟩ :=
      hread.parses (3 * input.length + 1) _ (by rw [← hstart]; exact first_rounds input) hstart
    rw [← hstart, ← getNextToken_token] at hroot
    rw [parse_of_root hroot hs hc, if_pos hend]

/-- A text stands for one value at most. -/
theorem Accepted.unique {input : Bytes} {v v' : Value} (h : Accepted stringToDouble input v)
    (h' : Accepted stringToDouble input v') : v = v' :=
  Except.ok.inj ((parse_eq_ok_iff.mpr h).symm.trans (parse_eq_ok_iff.mpr h'))

/-- The rounds of `parse` are never used up. -/
theorem parse_ne_outOfRounds (input : Bytes) :
    parse stringToDouble input ≠ .error .outOfRounds := by
  have henough : parseToken stringToDouble (3 * input.length + 1) 0
      (tokenOf (start input).getNextToken.2.rest) (start input).getNextToken.2 ≠
        .error .outOfRounds := (enough _).parseToken (first_rounds input)
  rw [← getNextToken_token] at henough
  cases hroot : parseToken stringToDouble (3 * input.length + 1) 0 (start input).getNextToken.1
      (start input).getNextToken.2 with
  | error e =>
      rw [hroot] at henough
      unfold parse
      dsimp only
      rw [hroot]
      exact fun h => henough (congrArg Except.error (Except.error.inj h))
  | ok p =>
      obtain ⟨root, s⟩ := p
      obtain ⟨c, rest, hs, hc, -⟩ :=
        (sound _).parseToken (by rwa [getNextToken_token] at hroot)
      rw [parse_of_root hroot hs hc]
      split_ifs <;> exact fun h => nomatch h

end TronWallet.Analysis
