import TronWallet.Model.Base58

/-!
# Texts read as integers

`base/string_number_conversions.cc`, as far as the wallet reads integers.  The template reads
the digits one by one into the output and stops where the next one would leave the range:
the output is then the end of the range, and the result false.  A character that is no
digit also stops it, with what has been read so far in the output.

The bounds of the type and the base are those of the traits, as in the source.  Base 16 has
digits of its own and may be announced by `0x`.
-/

set_option autoImplicit false

namespace TronWallet.Model

/-- The type and the base that are read.
SOURCE: base/string_number_conversions.cc:278-290 -/
structure NumberTraits where
  min : ℤ
  max : ℤ
  kBase : ℤ

/-- The traits of `StringToInt64`.
SOURCE: base/string_number_conversions.cc:338-349 -/
def int64Traits : NumberTraits where
  min := -2 ^ 63
  max := 2 ^ 63 - 1
  kBase := 10

/-- The two ways digits are appended. -/
inductive Sign where
  | positive
  | negative
deriving DecidableEq

namespace IteratorRangeToNumber

variable (T : NumberTraits)

/-- SOURCE: base/string_number_conversions.cc:98-108, 127-130 -/
def charToDigit (c : UInt8) : Option ℤ :=
  if 48 ≤ c.toNat ∧ (c.toNat : ℤ) < 48 + T.kBase then some ((c.toNat : ℤ) - 48) else none

/-- Whether the next digit stays in range, and the output.
SOURCE: base/string_number_conversions.cc:247-255, 263-271 -/
def checkBounds : Sign → ℤ → ℤ → Bool × ℤ
  | .positive, output, new_digit =>
    if T.max.tdiv T.kBase < output ∨
        output = T.max.tdiv T.kBase ∧ T.max.tmod T.kBase < new_digit then (false, T.max)
    else (true, output)
  | .negative, output, new_digit =>
    if output < T.min.tdiv T.kBase ∨
        output = T.min.tdiv T.kBase ∧ 0 - T.min.tmod T.kBase < new_digit then (false, T.min)
    else (true, output)

/-- SOURCE: base/string_number_conversions.cc:256-258, 272-274 -/
def increment : Sign → ℤ → ℤ → ℤ
  | .positive, new_digit, output => output + new_digit
  | .negative, new_digit, output => output - new_digit

/-- The loop over the digits; `atBegin` is `current == begin`.
SOURCE: base/string_number_conversions.cc:225-241 -/
def digitLoop (sign : Sign) : Bytes → Bool → ℤ → Bool × ℤ
  | [], _, output => (true, output)
  | c :: rest, atBegin, output =>
    match charToDigit T c with
    | none => (false, output)
    | some new_digit =>
      if atBegin then digitLoop sign rest false (increment sign new_digit output)
      else
        match checkBounds T sign output new_digit with
        | (false, output) => (false, output)
        | (true, output) =>
          digitLoop sign rest false (increment sign new_digit (output * T.kBase))

/-- Reads the digits after the sign.
SOURCE: base/string_number_conversions.cc:210-242 -/
def invokeBase (sign : Sign) (text : Bytes) : Bool × ℤ :=
  if text = [] then (false, 0) else digitLoop T sign text true 0

/-- Whether the text is the numeral of a number in range, and the output.
SOURCE: base/string_number_conversions.cc:172-198 -/
def invoke (text : Bytes) : Bool × ℤ :=
  let begin := text.dropWhile isspace
  let valid : Bool := decide (begin = text)
  match begin with
  | 45 :: rest => (valid && (invokeBase T .negative rest).1, (invokeBase T .negative rest).2)
  | 43 :: rest => (valid && (invokeBase T .positive rest).1, (invokeBase T .positive rest).2)
  | rest => (valid && (invokeBase T .positive rest).1, (invokeBase T .positive rest).2)

end IteratorRangeToNumber

/-- SOURCE: base/string_number_conversions.cc:431-433 -/
def stringToInt64 (input : Bytes) : Bool × ℤ := IteratorRangeToNumber.invoke int64Traits input

/-- The traits of `StringToInt`.
SOURCE: base/string_number_conversions.cc:278-290 -/
def intTraits : NumberTraits where
  min := -2 ^ 31
  max := 2 ^ 31 - 1
  kBase := 10

/-- SOURCE: base/string_number_conversions.cc:415-417 -/
def stringToInt (input : Bytes) : Bool × ℤ := IteratorRangeToNumber.invoke intTraits input

/-! ## Base 16 -/

/-- The traits of `HexStringToInt`.
SOURCE: base/string_number_conversions.cc:292-294 -/
def hexTraits : NumberTraits where
  min := -2 ^ 31
  max := 2 ^ 31 - 1
  kBase := 16

namespace HexRangeToNumber

open IteratorRangeToNumber (checkBounds increment)

/-- SOURCE: base/string_number_conversions.cc:111-125 -/
def charToDigit (c : UInt8) : Option ℤ :=
  if 48 ≤ c.toNat ∧ c.toNat ≤ 57 then some ((c.toNat : ℤ) - 48)
  else if 97 ≤ c.toNat ∧ c.toNat < 97 + 6 then some ((c.toNat : ℤ) - 97 + 10)
  else if 65 ≤ c.toNat ∧ c.toNat < 65 + 6 then some ((c.toNat : ℤ) - 65 + 10)
  else none

/-- The loop over the digits; `atBegin` is `current == begin`.
SOURCE: base/string_number_conversions.cc:225-241 -/
def digitLoop (sign : Sign) : Bytes → Bool → ℤ → Bool × ℤ
  | [], _, output => (true, output)
  | c :: rest, atBegin, output =>
    match charToDigit c with
    | none => (false, output)
    | some new_digit =>
      if atBegin then digitLoop sign rest false (increment sign new_digit output)
      else
        match checkBounds hexTraits sign output new_digit with
        | (false, output) => (false, output)
        | (true, output) =>
          digitLoop sign rest false (increment sign new_digit (output * hexTraits.kBase))

/-- Reads the digits after the sign and a `0x`.
SOURCE: base/string_number_conversions.cc:210-242 -/
def invokeBase (sign : Sign) (text : Bytes) : Bool × ℤ :=
  if text = [] then (false, 0)
  else
    let announced : Bool := 2 < text.length ∧ text.getD 0 0 = 48 ∧
      (text.getD 1 0 = 120 ∨ text.getD 1 0 = 88)
    digitLoop sign (if announced then text.drop 2 else text) true 0

/-- SOURCE: base/string_number_conversions.cc:172-198 -/
def invoke (text : Bytes) : Bool × ℤ :=
  let begin := text.dropWhile isspace
  let valid : Bool := decide (begin = text)
  match begin with
  | 45 :: rest => (valid && (invokeBase .negative rest).1, (invokeBase .negative rest).2)
  | 43 :: rest => (valid && (invokeBase .positive rest).1, (invokeBase .positive rest).2)
  | rest => (valid && (invokeBase .positive rest).1, (invokeBase .positive rest).2)

end HexRangeToNumber

/-- SOURCE: base/string_number_conversions.cc:499-502 -/
def hexStringToInt (input : Bytes) : Bool × ℤ := HexRangeToNumber.invoke input

end TronWallet.Model
