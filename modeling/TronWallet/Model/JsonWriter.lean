import TronWallet.Model.UtfConversions
import TronWallet.Model.Value

/-!
# JSON texts are written

`base::JSONWriter` and `base::EscapeJSONString`.  The text is built from left to right;
each part returns what the source appends, and whether it counts as a success.  Numbers
that are not integers are written by `std::to_string`, which is a parameter.

The wallet writes in two ways: compact, by `JSONStringValueSerializer`, and with line ends
and indentation, by `JSONFileValueSerializer`.
-/

set_option autoImplicit false

namespace TronWallet.Model

/-- The bytes of a text of the program. -/
def asciiText (s : String) : Bytes := s.toList.map fun c => UInt8.ofNat c.toNat

/-- The options of the writer the wallet can set.
SOURCE: base/json_writer.cc:47-54 -/
structure JSONWriter where
  omit_binary_values_ : Bool := false
  pretty_print_ : Bool := false
  /-- `std::to_string` of a `double`. -/
  doubleToString : ℚ → Bytes

/-- On Windows. SOURCE: base/json_writer.cc:20-21 -/
def kPrettyPrintLineEnding : Bytes := [13, 10]

/-! ## Strings -/

/-- An upper-case hexadecimal digit of `%04X`. -/
def upperHexDigit (n : ℕ) : UInt8 := UInt8.ofNat (if n < 10 then 48 + n else 55 + n)

/-- What `printf` writes for `\u%04X` of a code point below 65536.
SOURCE: base/string_escape.cc:23 -/
def u16Escape (code_point : ℕ) : Bytes :=
  [92, 117, upperHexDigit (code_point / 4096 % 16), upperHexDigit (code_point / 256 % 16),
    upperHexDigit (code_point / 16 % 16), upperHexDigit (code_point % 16)]

/-- The escape sequence of a special character.
SOURCE: base/string_escape.cc:34-77 -/
def escapeSpecialCodePoint (code_point : ℕ) : Option Bytes :=
  if code_point = 8 then some [92, 98]
  else if code_point = 12 then some [92, 102]
  else if code_point = 10 then some [92, 110]
  else if code_point = 13 then some [92, 114]
  else if code_point = 9 then some [92, 116]
  else if code_point = 92 then some [92, 92]
  else if code_point = 34 then some [92, 34]
  else if code_point = 60 then some (u16Escape 0x3C)
  else if code_point = 0x2028 then some (u16Escape 0x2028)
  else if code_point = 0x2029 then some (u16Escape 0x2029)
  else none

/-- The text of one character in a string.
SOURCE: base/string_escape.cc:98-119 -/
def escapeCharacter (c : Char) : Bytes :=
  match escapeSpecialCodePoint c.toNat with
  | some text => text
  | none => if c.toNat < 32 then u16Escape c.toNat else writeUnicodeCharacter c

/-- The text of a string, in quotes, and whether nothing had to be replaced.
SOURCE: base/string_escape.cc:80-126 -/
def escapeJSONString (str : Bytes) : Bool × Bytes :=
  ((readCharacters str).all Option.isSome,
    34 :: ((characters str).flatMap escapeCharacter ++ [34]))

/-! ## Values -/

/-- What `std::to_string` writes for an integer. -/
def intToString (value : ℤ) : Bytes := signedDecimal value

/-- The text of a number that is no integer: a fraction part and a leading zero are added
where they are missing.
SOURCE: base/json_writer.cc:91-108 -/
def realText (real : Bytes) : Bytes :=
  let real := if 46 ∈ real ∨ 101 ∈ real ∨ 69 ∈ real then real else real ++ [46, 48]
  match real with
  | 46 :: rest => 48 :: 46 :: rest
  | 45 :: 46 :: rest => 45 :: 48 :: 46 :: rest
  | real => real

namespace JSONWriter

variable (W : JSONWriter)

/-- A text that is appended only with `pretty_print_`. -/
def pretty (text : Bytes) : Bytes := if W.pretty_print_ then text else []

/-- SOURCE: base/json_writer.cc:204-206 -/
def indentLine (depth : ℕ) : Bytes := W.pretty (List.replicate (depth * 3) 32)

/-- Whether a value is left out of a list or a dictionary. -/
def omits : Value → Bool
  | .binary _ => W.omit_binary_values_
  | _ => false

mutual

/-- SOURCE: base/json_writer.cc:56-202 -/
def buildJSONString : Value → ℕ → Bool × Bytes
  | .null, _ => (true, asciiText "null")
  | .boolean value, _ => (true, if value then asciiText "true" else asciiText "false")
  | .integer value, _ => (true, intToString value)
  | .double value, _ => (true, realText (W.doubleToString value))
  -- Whether characters were replaced is not looked at.
  | .string value, _ => (true, (escapeJSONString value).2)
  | .list l, depth =>
    let (result, text) := buildItems l false depth
    (result, 91 :: (W.pretty [32] ++ text ++ W.pretty [32] ++ [93]))
  | .dictionary d, depth =>
    let (result, text) := buildEntries d false depth
    (result, 123 :: (W.pretty kPrettyPrintLineEnding ++ text ++
      W.pretty kPrettyPrintLineEnding ++ W.indentLine depth ++ [125]))
  | .binary _, _ => (W.omit_binary_values_, [])

/-- The loop over the items of a list.
SOURCE: base/json_writer.cc:119-148 -/
def buildItems : List Value → Bool → ℕ → Bool × Bytes
  | [], _, _ => (true, [])
  | value :: l, first_value_has_been_output, depth =>
    if W.omits value then buildItems l first_value_has_been_output depth
    else
      let (ok, text) := buildJSONString value depth
      let (oks, texts) := buildItems l true depth
      (ok && oks, (if first_value_has_been_output then 44 :: W.pretty [32] else []) ++
        (text ++ texts))

/-- The loop over the entries of a dictionary.
SOURCE: base/json_writer.cc:150-193 -/
def buildEntries : List (Bytes × Value) → Bool → ℕ → Bool × Bytes
  | [], _, _ => (true, [])
  | (key, value) :: d, first_value_has_been_output, depth =>
    if W.omits value then buildEntries d first_value_has_been_output depth
    else
      let (ok, text) := buildJSONString value (depth + 1)
      let (oks, texts) := buildEntries d true depth
      (ok && oks,
        (if first_value_has_been_output then 44 :: W.pretty kPrettyPrintLineEnding else []) ++
        (W.indentLine (depth + 1) ++ ((escapeJSONString key).2 ++
          (58 :: (W.pretty [32] ++ (text ++ texts))))))

end

/-- SOURCE: base/json_writer.cc:31-45 -/
def write (node : Value) : Bool × Bytes :=
  ((W.buildJSONString node 0).1,
    (W.buildJSONString node 0).2 ++ W.pretty kPrettyPrintLineEnding)

end JSONWriter

end TronWallet.Model
