import TronWallet.Model.JsonWriter
import TronWallet.Model.StringNumber

/-!
# JSON texts are read

`base::internal::JSONParser`, with the options the wallet reads with.  The parser moves
`pos_` over the text; the functions that consume a value leave it on the last character of
the value, and the caller goes on to the next one.  In a string `index_` runs ahead of
`pos_`, and an error is reported at `index_`.

A text ends in a NUL that can be read like a character.  Numbers that are no `int` are read
by `strtod`, which is a parameter: the finite number read, if there is one.

Values are read by recursion, with the rounds left to it.  `parse` gives it more rounds than
the text has use for.
-/

set_option autoImplicit false

namespace TronWallet.Model

/-- SOURCE: base/json_reader.h:60-71 -/
inductive JsonParseError where
  | noError
  | invalidEscape
  | syntaxError
  | unexpectedToken
  | trailingComma
  | tooMuchNesting
  | unexpectedDataAfterRoot
  | unsupportedEncoding
  | unquotedDictionaryKey
deriving DecidableEq

/-- SOURCE: base/json_parser.h:69-83 -/
inductive Token where
  | objectBegin
  | objectEnd
  | arrayBegin
  | arrayEnd
  | string
  | number
  | boolTrue
  | boolFalse
  | null
  | listSeparator
  | objectPairSeparator
  | endOfInput
  | invalidToken
deriving DecidableEq

/-- How a text is turned down. -/
inductive ParseFailure where
  /-- `error_code_`, `error_line_` and `error_column_`. -/
  | reported (code : JsonParseError) (line : ℕ) (column : ℤ)
  | outOfRounds

/-- Where the parser stands. -/
structure JSONParser where
  /-- The text from `pos_` on. -/
  rest : Bytes
  /-- The byte before `pos_`. -/
  before : Option UInt8 := none
  index_ : ℕ := 0
  line_number_ : ℕ := 1
  index_last_line_ : ℕ := 0

/-- SOURCE: base/json_parser.cc:23 -/
def kStackMaxDepth : ℕ := 100

namespace JSONParser

/-- `*pos_`. -/
def current (s : JSONParser) : UInt8 := s.rest.headD 0

/-- SOURCE: base/json_parser.cc:354-358 -/
def nextNChars (n : ℕ) (s : JSONParser) : JSONParser :=
  { s with
    rest := s.rest.drop n
    before := (s.before.toList ++ s.rest.take n).getLast?
    index_ := s.index_ + n }

/-- SOURCE: base/json_parser.cc:347-352 -/
def nextChar (s : JSONParser) : JSONParser := s.nextNChars 1

/-- SOURCE: base/json_parser.cc:962-967 -/
def reportError (s : JSONParser) (code : JsonParseError) (column_adjust : ℤ) : ParseFailure :=
  .reported code s.line_number_ (s.index_ - s.index_last_line_ + column_adjust)

/-! ## Tokens -/

/-- SOURCE: base/json_parser.cc:365-400 -/
def tokenAt (c : UInt8) : Token :=
  if c = 123 then .objectBegin
  else if c = 125 then .objectEnd
  else if c = 91 then .arrayBegin
  else if c = 93 then .arrayEnd
  else if c = 34 then .string
  else if 48 ≤ c ∧ c ≤ 57 ∨ c = 45 then .number
  else if c = 116 then .boolTrue
  else if c = 102 then .boolFalse
  else if c = 110 then .null
  else if c = 44 then .listSeparator
  else if c = 58 then .objectPairSeparator
  else .invalidToken

/-- From a `//` to the end of its line: the steps taken, and whether there is an end.
SOURCE: base/json_parser.cc:432-437 -/
def lineComment : Bytes → ℕ × Bool
  | [] => (0, false)
  | _ :: rest =>
    if rest.headD 0 = 10 ∨ rest.headD 0 = 13 then (1, true)
    else ((lineComment rest).1 + 1, (lineComment rest).2)

/-- From the star of a `/*` to the character behind the end of the comment.
SOURCE: base/json_parser.cc:438-452 -/
def blockComment : UInt8 → Bytes → ℕ × Bool
  | _, [] => (0, false)
  | previous_char, _ :: rest =>
    if previous_char = 42 ∧ rest.headD 0 = 47 then (2, true)
    else ((blockComment (rest.headD 0) rest).1 + 1, (blockComment (rest.headD 0) rest).2)

/-- Whether a comment has been eaten. A slash that begins none has been passed by.
SOURCE: base/json_parser.cc:427-458 -/
def eatComment (s : JSONParser) : Bool × JSONParser :=
  let s := s.nextChar
  if s.current = 47 then ((lineComment s.rest).2, s.nextNChars (lineComment s.rest).1)
  else if s.current = 42 then ((blockComment 0 s.rest).2, s.nextNChars (blockComment 0 s.rest).1)
  else (false, s)

/-- A line end is counted, `"\r\n"` once.
SOURCE: base/json_parser.cc:406-411 -/
def countLine (s : JSONParser) : JSONParser :=
  { s with
    index_last_line_ := s.index_
    line_number_ :=
      if s.current = 10 ∧ s.before = some 13 then s.line_number_ else s.line_number_ + 1 }

/-- The loop of `EatWhitespaceAndComments`. Every round takes a character. -/
def eatLoop : ℕ → JSONParser → JSONParser
  | 0, s => s
  | rounds + 1, s =>
    match s.rest with
    | [] => s
    | c :: _ =>
      if c = 13 ∨ c = 10 then eatLoop rounds s.countLine.nextChar
      else if c = 32 ∨ c = 9 then eatLoop rounds s.nextChar
      else if c = 47 then
        if s.eatComment.1 then eatLoop rounds s.eatComment.2 else s.eatComment.2
      else s

/-- SOURCE: base/json_parser.cc:403-425 -/
def eatWhitespaceAndComments (s : JSONParser) : JSONParser := eatLoop s.rest.length s

/-- SOURCE: base/json_parser.cc:360-401 -/
def getNextToken (s : JSONParser) : Token × JSONParser :=
  match s.eatWhitespaceAndComments.rest with
  | [] => (.endOfInput, s.eatWhitespaceAndComments)
  | c :: _ => (tokenAt c, s.eatWhitespaceAndComments)

end JSONParser

/-! ## Strings -/

/-- A code unit read by `HexStringToInt` into an `int` and used without its sign. -/
def toCodeUnit (value : ℤ) : ℕ := (value % 2 ^ 32).toNat

/-- SOURCE: base/icu_utf.h:285 -/
def isSurrogateLead (c : ℕ) : Bool := c / 1024 % 2 = 0

/-- SOURCE: base/icu_utf.h:268 -/
def isTrail (c : ℕ) : Bool := c / 1024 = 55

/-- `CBU16_GET_SUPPLEMENTARY`. SOURCE: base/icu_utf.h:291-305 -/
def getSupplementary (lead trail : ℕ) : ℕ :=
  lead * 1024 + trail - (0xd800 * 1024 + 0xdc00 - 0x10000)

/-- The bytes a code point is appended as.
SOURCE: base/json_parser.cc:636-639, 803-819 -/
def appendCodePoint (point : ℕ) : Bytes :=
  if point < 0x80 then [UInt8.ofNat point] else cbu8AppendUnsafe point

/-- The digits of a `\u` and, for a surrogate, the sequence behind it: the bytes appended and
the steps taken, or the steps taken up to the failure. The bytes are appended as a C string.
SOURCE: base/json_parser.cc:735-801 -/
def decodeUTF16 (text : Bytes) : Except ℕ (Bytes × ℕ) :=
  if text.length < 4 then .error 0
  else if (hexStringToInt (text.take 4)).1 = false then .error 0
  else
    let code_unit16_high := toCodeUnit (hexStringToInt (text.take 4)).2
    if isSurrogate code_unit16_high then
      if !isSurrogateLead code_unit16_high then .error 3
      else if text.length < 3 + 6 then .error 3
      else if text.getD 4 0 ≠ 92 then .error 4
      else if text.getD 5 0 ≠ 117 then .error 5
      else
        -- Only three digits may be left; the NUL behind them is no digit.
        let digits := ((text ++ [0]).drop 6).take 4
        if (hexStringToInt digits).1 = false then .error 6
        else
          let code_unit16_low := toCodeUnit (hexStringToInt digits).2
          if !isTrail code_unit16_low then .error 9
          else
            let code_point := getSupplementary code_unit16_high code_unit16_low
            if !isValidCharacter code_point then .error 9
            else .ok (cStr (cbu8AppendUnsafe code_point), 9)
    else if !isValidCharacter code_unit16_high then .error 3
    else .ok (cStr (cbu8AppendUnsafe code_unit16_high), 3)

/-- A backslash has been read, `text` is behind it: what is appended and how far `index_` goes
on, or the column adjustment of `JSON_INVALID_ESCAPE` and how far `index_` has gone.
SOURCE: base/json_parser.cc:649-726 -/
def consumeEscape (text : Bytes) : Except (ℤ × ℕ) (Bytes × ℕ) :=
  match text with
  | [] => .error (0, 1)
  | c :: more =>
    if c = 120 then
      let digits := (more ++ [0]).take 2
      if more = [] then .error (1, 1)
      else if (hexStringToInt digits).1 = false then .error (-1, 2)
      else if !isValidCharacter (toCodeUnit (hexStringToInt digits).2) then .error (-1, 2)
      else .ok (appendCodePoint (toCodeUnit (hexStringToInt digits).2), 3)
    else if c = 117 then
      if more.length < 4 then .error (0, 1)
      else
        match decodeUTF16 more with
        | .error steps => .error (-1, 2 + steps)
        | .ok (utf8_units, steps) => .ok (utf8_units, 2 + steps)
    else if c = 34 then .ok ([34], 1)
    else if c = 92 then .ok ([92], 1)
    else if c = 47 then .ok ([47], 1)
    else if c = 98 then .ok ([8], 1)
    else if c = 102 then .ok ([12], 1)
    else if c = 110 then .ok ([10], 1)
    else if c = 114 then .ok ([13], 1)
    else if c = 116 then .ok ([9], 1)
    else if c = 118 then .ok ([11], 1)
    else .error (0, 1)

namespace JSONParser

/-- The loop over the characters of a string; `text` begins at `index_`. What is returned is
the string, the position of the closing quote and the text behind it. At the end of the text
the NUL is read like a character.
SOURCE: base/json_parser.cc:620-731 -/
def stringLoop (s : JSONParser) : ℕ → ℕ → Bytes → Bytes → Except ParseFailure (Bytes × ℕ × Bytes)
  | 0, _, _, _ => .error .outOfRounds
  | rounds + 1, index_, text, string =>
    match text with
    | [] => .error ({ s with index_ := index_ + 1 }.reportError .syntaxError 0)
    | _ :: _ =>
      let behind := (cbu8Next text).2
      let index_ := index_ + (text.length - behind.length)
      match (cbu8Next text).1 with
      | none => .error ({ s with index_ := index_ }.reportError .unsupportedEncoding 1)
      | some next_char =>
        if !isValidCharacter next_char then
          .error ({ s with index_ := index_ }.reportError .unsupportedEncoding 1)
        else if next_char = 34 then .ok (string, index_ - 1, behind)
        else if next_char ≠ 92 then
          stringLoop s rounds index_ behind (string ++ appendCodePoint next_char)
        else
          match consumeEscape behind with
          | .error (adjust, steps) =>
            .error ({ s with index_ := index_ + steps }.reportError .invalidEscape adjust)
          | .ok (appended, steps) =>
            stringLoop s rounds (index_ + steps) (behind.drop steps) (string ++ appended)

/-- SOURCE: base/json_parser.cc:606-732 -/
def consumeStringRaw (s : JSONParser) : Except ParseFailure (Bytes × JSONParser) :=
  if s.current ≠ 34 then .error (s.reportError .unexpectedToken 1)
  else
    let opened := s.nextChar
    if opened.rest = [] then .error (opened.reportError .syntaxError 0)
    else
      match stringLoop s (opened.rest.length + 1) opened.index_ opened.rest [] with
      | .error e => .error e
      | .ok (string, index_, behind) =>
        .ok (string, { s with
          rest := 34 :: behind
          before := (s.rest.take (s.rest.length - (behind.length + 1))).getLast?
          index_ := index_ })

/-- SOURCE: base/json_parser.cc:591-604 -/
def consumeString (s : JSONParser) : Except ParseFailure (Value × JSONParser) :=
  match s.consumeStringRaw with
  | .error e => .error e
  | .ok (string, s) => .ok (.string string, s)

/-! ## Numbers -/

/-- The loop of `ReadInt`. -/
def readDigits (text : Bytes) : Bytes := text.takeWhile fun c => 48 ≤ c ∧ c ≤ 57

/-- SOURCE: base/json_parser.cc:897-914 -/
def readInt (allow_leading_zeros : Bool) (s : JSONParser) : Bool × JSONParser :=
  let len := (readDigits s.rest).length
  (!(len = 0 ∨ allow_leading_zeros = false ∧ 1 < len ∧ s.current = 48), s.nextNChars len)

/-- The optional fraction part.
SOURCE: base/json_parser.cc:836-847 -/
def readFraction (s : JSONParser) : Bool × JSONParser :=
  if s.current = 46 then s.nextChar.readInt true else (true, s)

/-- The sign of an exponent. -/
def skipSign (s : JSONParser) : JSONParser :=
  if s.current = 45 ∨ s.current = 43 then s.nextChar else s

/-- The optional exponent part.
SOURCE: base/json_parser.cc:850-859 -/
def readExponent (s : JSONParser) : Bool × JSONParser :=
  if s.current = 101 ∨ s.current = 69 then s.nextChar.skipSign.readInt true else (true, s)

/-- Whether a number may stand before a token.
SOURCE: base/json_parser.cc:868-877 -/
def mayFollowNumber : Token → Bool
  | .objectEnd | .arrayEnd | .listSeparator | .endOfInput => true
  | _ => false

/-- The parts of a number are read one after the other; `none` is a number cut short.
SOURCE: base/json_parser.cc:826-859 -/
def readNumber (s : JSONParser) : Bool × JSONParser :=
  let int := (if s.current = 45 then s.nextChar else s).readInt false
  if int.1 = false then int
  else
    let fraction := int.2.readFraction
    if fraction.1 = false then fraction else fraction.2.readExponent

/-- The position is set back after the look at the next token, the count of the lines is not.
SOURCE: base/json_parser.cc:821-895 -/
def consumeNumber (stringToDouble : Bytes → Option ℚ) (s : JSONParser) :
    Except ParseFailure (Value × JSONParser) :=
  let number := s.readNumber
  if number.1 = false then .error (number.2.reportError .syntaxError 1)
  else
    let length := number.2.index_ - s.index_
    let next := number.2.getNextToken
    if !mayFollowNumber next.1 then .error (next.2.reportError .syntaxError 1)
    else
      let exit := { s.nextNChars (length - 1) with
        line_number_ := next.2.line_number_
        index_last_line_ := next.2.index_last_line_ }
      let num_string := s.rest.take length
      if (stringToInt num_string).1 then .ok (.integer (stringToInt num_string).2, exit)
      else
        match stringToDouble num_string with
        | some num_double => .ok (.double num_double, exit)
        | none => .error (.reported .noError 0 0)

/-! ## Literals -/

/-- A word of the language, where the text has it. -/
def consumeWord (word : Bytes) (value : Value) (s : JSONParser) :
    Except ParseFailure (Value × JSONParser) :=
  if s.rest.length < word.length - 1 ∨ s.rest.take word.length ≠ word then
    .error (s.reportError .syntaxError 1)
  else .ok (value, s.nextNChars (word.length - 1))

/-- SOURCE: base/json_parser.cc:916-955 -/
def consumeLiteral (s : JSONParser) : Except ParseFailure (Value × JSONParser) :=
  if s.current = 116 then s.consumeWord (asciiText "true") (.boolean true)
  else if s.current = 102 then s.consumeWord (asciiText "false") (.boolean false)
  else if s.current = 110 then s.consumeWord (asciiText "null") .null
  else .error (s.reportError .unexpectedToken 1)

/-! ## Values -/

section

variable (stringToDouble : Bytes → Option ℚ)

mutual

/-- The depth is what the `StackMarker`s above have counted.
SOURCE: base/json_parser.cc:464-482 -/
def parseToken : ℕ → ℕ → Token → JSONParser → Except ParseFailure (Value × JSONParser)
  | 0, _, _, _ => .error .outOfRounds
  | rounds + 1, stack_depth_, token, s =>
    match token with
    | .objectBegin => consumeDictionary rounds stack_depth_ s
    | .arrayBegin => consumeList rounds stack_depth_ s
    | .string => s.consumeString
    | .number => s.consumeNumber stringToDouble
    | .boolTrue => s.consumeLiteral
    | .boolFalse => s.consumeLiteral
    | .null => s.consumeLiteral
    | _ => .error (s.reportError .unexpectedToken 1)
termination_by structural rounds => rounds

/-- SOURCE: base/json_parser.cc:484-546 -/
def consumeDictionary : ℕ → ℕ → JSONParser → Except ParseFailure (Value × JSONParser)
  | 0, _, _ => .error .outOfRounds
  | rounds + 1, stack_depth_, s =>
    if s.current ≠ 123 then .error (s.reportError .unexpectedToken 1)
    else if kStackMaxDepth ≤ stack_depth_ + 1 then .error (s.reportError .tooMuchNesting 1)
    else
      let next := s.nextChar.getNextToken
      dictionaryLoop rounds (stack_depth_ + 1) next.1 next.2 []
termination_by structural rounds => rounds

/-- The loop of `ConsumeDictionary`.
SOURCE: base/json_parser.cc:500-543 -/
def dictionaryLoop :
    ℕ → ℕ → Token → JSONParser → Dictionary → Except ParseFailure (Value × JSONParser)
  | 0, _, _, _, _ => .error .outOfRounds
  | rounds + 1, stack_depth_, token, s, dict =>
    if token = .objectEnd then .ok (.dictionary dict, s)
    else if token ≠ .string then .error (s.reportError .unquotedDictionaryKey 1)
    else
      match s.consumeStringRaw with
      | .error e => .error e
      | .ok (key, s) =>
        let separator := s.nextChar.getNextToken
        if separator.1 ≠ .objectPairSeparator then
          .error (separator.2.reportError .syntaxError 1)
        else
          let first := separator.2.nextChar.getNextToken
          match parseToken rounds stack_depth_ first.1 first.2 with
          | .error e => .error e
          | .ok (value, s) =>
            let dict := dict.setWithoutPathExpansion key value
            let next := s.nextChar.getNextToken
            if next.1 = .listSeparator then
              let next := next.2.nextChar.getNextToken
              if next.1 = .objectEnd then .error (next.2.reportError .trailingComma 1)
              else dictionaryLoop rounds stack_depth_ next.1 next.2 dict
            else if next.1 ≠ .objectEnd then .error (next.2.reportError .syntaxError 0)
            else dictionaryLoop rounds stack_depth_ next.1 next.2 dict
termination_by structural rounds => rounds

/-- SOURCE: base/json_parser.cc:548-589 -/
def consumeList : ℕ → ℕ → JSONParser → Except ParseFailure (Value × JSONParser)
  | 0, _, _ => .error .outOfRounds
  | rounds + 1, stack_depth_, s =>
    if s.current ≠ 91 then .error (s.reportError .unexpectedToken 1)
    else if kStackMaxDepth ≤ stack_depth_ + 1 then .error (s.reportError .tooMuchNesting 1)
    else
      let next := s.nextChar.getNextToken
      listLoop rounds (stack_depth_ + 1) next.1 next.2 []
termination_by structural rounds => rounds

/-- The loop of `ConsumeList`.
SOURCE: base/json_parser.cc:564-586 -/
def listLoop :
    ℕ → ℕ → Token → JSONParser → List Value → Except ParseFailure (Value × JSONParser)
  | 0, _, _, _, _ => .error .outOfRounds
  | rounds + 1, stack_depth_, token, s, list =>
    if token = .arrayEnd then .ok (.list list, s)
    else
      match parseToken rounds stack_depth_ token s with
      | .error e => .error e
      | .ok (item, s) =>
        let list := list ++ [item]
        let next := s.nextChar.getNextToken
        if next.1 = .listSeparator then
          let next := next.2.nextChar.getNextToken
          if next.1 = .arrayEnd then .error (next.2.reportError .trailingComma 1)
          else listLoop rounds stack_depth_ next.1 next.2 list
        else if next.1 ≠ .arrayEnd then .error (next.2.reportError .syntaxError 1)
        else listLoop rounds stack_depth_ next.1 next.2 list
termination_by structural rounds => rounds

end

/-- Where the reading of a text begins: behind a byte order mark.
SOURCE: base/json_parser.cc:218-238 -/
def start (input : Bytes) : JSONParser :=
  let s : JSONParser := { rest := input }
  if input.take 3 = [0xEF, 0xBB, 0xBF] then s.nextNChars 3 else s

/-- SOURCE: base/json_parser.cc:206-271 -/
def parse (input : Bytes) : Except ParseFailure Value :=
  let first := (start input).getNextToken
  match parseToken stringToDouble (3 * input.length + 1) 0 first.1 first.2 with
  | .error e => .error e
  | .ok (root, s) =>
    -- The parser still stands on the last character of the value.
    let next := s.getNextToken
    if next.1 = .endOfInput then .ok root
    else if next.2.rest = [] then .error (next.2.reportError .unexpectedDataAfterRoot 1)
    else
      let last := next.2.nextChar.getNextToken
      if last.1 = .endOfInput then .ok root
      else .error (last.2.reportError .unexpectedDataAfterRoot 1)

end

end JSONParser

/-- `JSONStringValueDeserializer::Deserialize`, with the errors left out.
SOURCE: base/json_string_value_serializer.cc:48-55, base/json_reader.cc:62-85 -/
def deserialize (stringToDouble : Bytes → Option ℚ) (json_string : Bytes) : Option Value :=
  (JSONParser.parse stringToDouble json_string).toOption

end TronWallet.Model
