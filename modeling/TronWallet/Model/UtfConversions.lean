import TronWallet.Model.InfoForms

/-!
# Characters in UTF-8 and in wide strings

The macros of `base/icu_utf.h` and the two directions of `ConvertUnicode`.  A code point is
a number until it has passed `IsValidCodepoint`; then it is a `Char`, whose values are just
the code points that test lets through.

Where the macros put bits side by side with `|`, the sum is taken here: the bits never
overlap.  A wide string of the wallet holds 16-bit units, but `ReadUnicodeCharacter` and
`WriteUnicodeCharacter` treat each unit as a character of its own.
-/

set_option autoImplicit false

namespace TronWallet.Model

/-! ## UTF-8 -/

/-- SOURCE: base/icu_utf.h:133 -/
def isUtf8Lead (c : UInt8) : Bool := 0xc0 ≤ c.toNat ∧ c.toNat < 0xfe

/-- SOURCE: base/icu_utf.h:141 -/
def isUtf8Trail (c : UInt8) : Bool := c.toNat / 64 = 2

/-- SOURCE: base/icu_utf.h:89 -/
def isSurrogate (c : ℕ) : Bool := c / 2048 = 27

/-- SOURCE: base/icu_utf.cc:77-99 -/
def utf8CountTrailBytes (leadByte : UInt8) : ℕ :=
  if leadByte.toNat < 0xc0 then 0
  else if leadByte.toNat < 0xe0 then 1
  else if leadByte.toNat < 0xf0 then 2
  else if leadByte.toNat < 0xf8 then 3
  else if leadByte.toNat < 0xfc then 4
  else if leadByte.toNat < 0xfe then 5
  else 0

/-- SOURCE: base/icu_utf.cc:101-102 -/
def utf8MinLegal : List ℕ := [0, 0x80, 0x800, 0x10000]

/-- The trail bytes taken into the code point, and whether one of them is illegal.
SOURCE: base/icu_utf.cc:160-170 -/
def addTrailBytes : ℕ → ℕ → Bytes → ℕ × Bool
  | count + 1, c, trail :: rest =>
    let (c', illegal) := addTrailBytes count (c * 64 + trail.toNat % 64) rest
    (c', illegal || !isUtf8Trail trail)
  | _, c, _ => (c, false)

/-- The code point of a lead byte and as many bytes as it asks for, and whether the sequence
is illegal. A first trail byte that takes it beyond Unicode ends the reading.
SOURCE: base/icu_utf.cc:140-177 -/
def assembleUtf8 (lead : UInt8) (rest : Bytes) : ℕ × Bool :=
  let count := utf8CountTrailBytes lead
  let c := lead.toNat % 2 ^ (6 - count)
  if 4 ≤ count then (c, true)
  else if count = 3 ∧ 0x110 ≤ c * 64 + (rest.headD 0).toNat % 64 then (c, true)
  else addTrailBytes count c rest

/-- The code point behind a lead byte, `none` for the sentinel, and the text behind it. What
is skipped of an illegal sequence are its trail bytes.
SOURCE: base/icu_utf.cc:132-225 -/
def utf8NextCharSafeBody (lead : UInt8) (rest : Bytes) : Option ℕ × Bytes :=
  let count := utf8CountTrailBytes lead
  if count ≤ rest.length then
    if count = 0 then (none, rest)
    else
      let (c, illegal) := assembleUtf8 lead rest
      if illegal = true ∨ c < utf8MinLegal.getD count 0 ∨ isSurrogate c = true then
        (none, (rest.take count).dropWhile isUtf8Trail ++ rest.drop count)
      else (some c, rest.drop count)
  else (none, rest.dropWhile isUtf8Trail)

/-- `CBU8_NEXT` on a text that is not empty.
SOURCE: base/icu_utf.h:196-207 -/
def cbu8Next : Bytes → Option ℕ × Bytes
  | [] => (none, [])
  | c :: rest =>
    if c.toNat < 0x80 then (some c.toNat, rest)
    else if isUtf8Lead c then utf8NextCharSafeBody c rest
    else (none, rest)

/-- `CBU8_APPEND_UNSAFE`: the bytes it writes.
SOURCE: base/icu_utf.h:223-240 -/
def cbu8AppendUnsafe (c : ℕ) : Bytes :=
  if c ≤ 0x7f then [UInt8.ofNat c]
  else if c ≤ 0x7ff then [UInt8.ofNat (c / 64 + 0xc0), UInt8.ofNat (c % 64 + 0x80)]
  else if c ≤ 0xffff then
    [UInt8.ofNat (c / 4096 + 0xe0), UInt8.ofNat (c / 64 % 64 + 0x80),
      UInt8.ofNat (c % 64 + 0x80)]
  else
    [UInt8.ofNat (c / 262144 + 0xf0), UInt8.ofNat (c / 4096 % 64 + 0x80),
      UInt8.ofNat (c / 64 % 64 + 0x80), UInt8.ofNat (c % 64 + 0x80)]

/-! ## One character -/

/-- SOURCE: base/utf_string_conversion_utils.h:18-24 -/
def isValidCodepoint (code_point : ℕ) : Bool :=
  code_point < 0xD800 ∨ 0xE000 ≤ code_point ∧ code_point ≤ 0x10FFFF

/-- SOURCE: base/utf_string_conversion_utils.h:26-33, base/icu_utf.h:400-406 -/
def isValidCharacter (code_point : ℕ) : Bool :=
  code_point < 0xD800 ∨ 0xE000 ≤ code_point ∧ code_point < 0xFDD0 ∨
    0xFDEF < code_point ∧ code_point ≤ 0x10FFFF ∧ code_point / 2 % 32768 ≠ 32767

/-- The character of a code point that is valid. -/
def validCodepoint (code_point : ℕ) : Option Char :=
  if isValidCodepoint code_point then some (Char.ofNat code_point) else none

/-- `ReadUnicodeCharacter` of UTF-8, `none` where it returns false, and the text behind.
SOURCE: base/utf_string_conversion_utils.cc:13-31 -/
def readUnicodeCharacter (src : Bytes) : Option Char × Bytes :=
  ((cbu8Next src).1.bind validCodepoint, (cbu8Next src).2)

/-- `ReadUnicodeCharacter` of a wide string.
SOURCE: base/utf_string_conversion_utils.cc:56-65 -/
def readWideCharacter (c : UInt16) : Option Char := validCodepoint c.toNat

/-- `WriteUnicodeCharacter` into UTF-8.
SOURCE: base/utf_string_conversion_utils.cc:69-88 -/
def writeUnicodeCharacter (c : Char) : Bytes := cbu8AppendUnsafe c.toNat

/-- `WriteUnicodeCharacter` into a wide string: what does not fit into a unit is cut off.
SOURCE: base/utf_string_conversion_utils.h:73-77 -/
def writeWideCharacter (c : Char) : Wide := [UInt16.ofNat c.toNat]

/-! ## Whole texts -/

/-- What stands for a character that cannot be read.
SOURCE: base/utf_string_conversions.cc:36, base/string_escape.cc:26 -/
def replacementCharacter : Char := Char.ofNat 0xFFFD

/-- The characters of a text as the loop over `ReadUnicodeCharacter` meets them, with the
rounds left to it. -/
def readCharactersLoop : ℕ → Bytes → List (Option Char)
  | 0, _ => []
  | _ + 1, [] => []
  | rounds + 1, b :: bs =>
    (readUnicodeCharacter (b :: bs)).1 ::
      readCharactersLoop rounds (readUnicodeCharacter (b :: bs)).2

/-- The characters of a text, `none` where one cannot be read.
SOURCE: base/utf_string_conversions.cc:31-39, base/string_escape.cc:90-96 -/
def readCharacters (src : Bytes) : List (Option Char) := readCharactersLoop src.length src

/-- The characters of a text, with the replacement character where one cannot be read. -/
def characters (src : Bytes) : List Char :=
  (readCharacters src).map fun c => c.getD replacementCharacter

/-- `ConvertUnicode` from UTF-8 to a wide string.
SOURCE: base/utf_string_conversions.cc:25-45 -/
def convertToWide (src : Bytes) : Wide := (characters src).flatMap writeWideCharacter

/-- `ConvertUnicode` from a wide string to UTF-8.
SOURCE: base/utf_string_conversions.cc:25-45 -/
def convertToUTF8 (src : Wide) : Bytes :=
  src.flatMap fun c => writeUnicodeCharacter ((readWideCharacter c).getD replacementCharacter)

/-- The conversions of text that is not ASCII (`ConvertUnicode`). -/
structure Unicode where
  toWide : Bytes → Wide
  toUTF8 : Wide → Bytes

/-- SOURCE: base/utf_string_conversions.cc:58-67 -/
def wideToUTF8 (U : Unicode) (wide : Wide) : Bytes :=
  if wide.all (· < 128) then wide.map UInt16.toUInt8 else U.toUTF8 wide

/-- The two conversions of the wallet. -/
def utfConversions : Unicode where
  toWide := convertToWide
  toUTF8 := convertToUTF8

end TronWallet.Model
