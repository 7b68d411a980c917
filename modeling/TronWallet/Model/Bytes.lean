import Mathlib.Data.List.Basic
import Mathlib.Tactic.Common
import Mathlib.Tactic.IntervalCases

/-!
# Byte strings, fixed-size hashes and hexadecimal text

`std::string`, `bytes` and `bytesSec` are all finite sequences of bytes, so the model
has one type for them, `Bytes`.  `FixedHash N` is libdevcore's fixed-size container:
the size is a field of the structure, so a hash of a wrong length cannot be built.

The constructors from a byte string follow `FixedHash.h`: `ofBytes` is
`FailIfDifferent` (a wrong length gives the zero hash) and `ofBytesLeft` is
`AlignLeft` (cropped or padded with zeroes on the right).  `fromHex` and `toHex` are
the two hexadecimal conversions of `CommonData`, with the odd-length rule of the
reader kept.
-/

set_option autoImplicit false

namespace TronWallet.Model

/-- A byte string: `bytes`, `bytesSec` and `std::string` alike. -/
abbrev Bytes := List UInt8

/-- `vector_ref::cropped(begin, count)`: the empty reference when out of range.
SOURCE: libdevcore/vector_ref.h:62 -/
def cropped (b : Bytes) (start count : ℕ) : Bytes :=
  if start + count ≤ b.length then (b.drop start).take count else []

/-- `vector_ref::cropped(begin)`: the rest of the data from `begin` on.
SOURCE: libdevcore/vector_ref.h:64 -/
def croppedFrom (b : Bytes) (start : ℕ) : Bytes :=
  if start ≤ b.length then b.drop start else []

/-- A fixed-size raw-byte container.
SOURCE: libdevcore/FixedHash.h:45-226 -/
structure FixedHash (N : ℕ) where
  /-- The binary data. -/
  m_data : Bytes
  /-- The container holds exactly `N` bytes. -/
  size_eq : m_data.length = N
deriving DecidableEq

namespace FixedHash

variable {N : ℕ}

/-- The empty hash: all bytes zero. -/
def zero (N : ℕ) : FixedHash N := ⟨List.replicate N 0, List.length_replicate⟩

instance : Zero (FixedHash N) := ⟨zero N⟩

instance : Inhabited (FixedHash N) := ⟨0⟩

/-- Hashes with the same bytes are the same. -/
@[ext] theorem ext {a b : FixedHash N} (h : a.m_data = b.m_data) : a = b := by
  cases a
  cases b
  cases h
  rfl

/-- Copying from a byte array, `FailIfDifferent`: zero unless the size is `N`.
SOURCE: libdevcore/FixedHash.h:77-80 -/
def ofBytes (b : Bytes) : FixedHash N :=
  if h : b.length = N then ⟨b, h⟩ else 0

/-- Copying from a byte array, `AlignLeft`: cropped, or padded on the right.
SOURCE: libdevcore/FixedHash.h:77-80 -/
def ofBytesLeft (b : Bytes) : FixedHash N :=
  ⟨b.take N ++ List.replicate (N - b.length) 0, by
    rw [List.length_append, List.length_take, List.length_replicate]
    omega⟩

/-- Copying from a byte array, `AlignRight`: the last bytes, padded on the left.
SOURCE: libdevcore/FixedHash.h:77-80 -/
def ofBytesRight (b : Bytes) : FixedHash N :=
  ⟨List.replicate (N - b.length) 0 ++ b.drop (b.length - N), by
    rw [List.length_append, List.length_drop, List.length_replicate]
    omega⟩

/-- A particular byte of the hash. -/
def byte (h : FixedHash N) (i : ℕ) : UInt8 := h.m_data.getD i 0

/-- A hash is made again from its own bytes. -/
@[simp] theorem ofBytes_m_data (h : FixedHash N) : (ofBytes h.m_data : FixedHash N) = h := by
  unfold ofBytes
  rw [dif_pos h.size_eq]

end FixedHash

abbrev H128 := FixedHash 16
abbrev H160 := FixedHash 20
abbrev H256 := FixedHash 32
abbrev H512 := FixedHash 64
abbrev H520 := FixedHash 65

/-- An account address: 20 bytes. SOURCE: libdevcore/Address.h:31 -/
abbrev Address := H160

/-- A secret key: 32 bytes. SOURCE: libdevcrypto/Common.h:36 -/
abbrev Secret := FixedHash 32

/-- The zero address. -/
def ZeroAddress : Address := 0

/-- The right 20 bytes of a 32-byte hash.
SOURCE: libdevcore/FixedHash.h:364-369 -/
def right160 (t : H256) : H160 :=
  ⟨t.m_data.drop 12, by rw [List.length_drop, t.size_eq]⟩

/-! ## Hexadecimal text -/

/-- The lower-case digits `toHex` writes. -/
def hexdigits : Bytes :=
  [48, 49, 50, 51, 52, 53, 54, 55, 56, 57, 97, 98, 99, 100, 101, 102]

/-- One hexadecimal digit.
SOURCE: libdevcore/CommonData.h:51 -/
def hexDigit (n : ℕ) : UInt8 := hexdigits.getD n 48

/-- The hexadecimal text of a byte string, without prefix.
SOURCE: libdevcore/CommonData.h:45-68 -/
def toHex : Bytes → Bytes
  | [] => []
  | b :: bs => hexDigit (b.toNat / 16 % 16) :: hexDigit (b.toNat % 16) :: toHex bs

/-- The value of a hexadecimal digit, `none` where the source returns -1.
SOURCE: libdevcore/CommonData.cpp:31-40 -/
def fromHexChar (c : UInt8) : Option ℕ :=
  if 48 ≤ c ∧ c ≤ 57 then some (c.toNat - 48)
  else if 97 ≤ c ∧ c ≤ 102 then some (c.toNat - 97 + 10)
  else if 65 ≤ c ∧ c ≤ 70 then some (c.toNat - 65 + 10)
  else none

/-- The digit pairs of `fromHex`, `none` at the first character that is no digit.
SOURCE: libdevcore/CommonData.cpp:96-106 -/
def fromHexPairs : Bytes → Option Bytes
  | h :: l :: rest =>
    match fromHexChar h, fromHexChar l with
    | some h, some l => (fromHexPairs rest).map (UInt8.ofNat (h * 16 + l) :: ·)
    | _, _ => none
  | _ => some []

/-- Hexadecimal text to bytes with `WhenError::DontThrow`: the empty string on a bad
digit, an optional `0x` prefix skipped, an odd length read as a leading half byte.
SOURCE: libdevcore/CommonData.cpp:81-109 -/
def fromHex (s : Bytes) : Bytes :=
  let body := if s.take 2 = [48, 120] then s.drop 2 else s
  if s.length % 2 = 1 then
    match body with
    | [] => []
    | c :: rest =>
      match fromHexChar c with
      | none => []
      | some h => ((fromHexPairs rest).map (UInt8.ofNat h :: ·)).getD []
  else
    (fromHexPairs body).getD []

/-- Every digit `toHex` writes reads back as its value. -/
theorem fromHexChar_hexDigit {n : ℕ} (hn : n < 16) : fromHexChar (hexDigit n) = some n := by
  interval_cases n <;> decide

/-- A byte is sixteen times its high half plus its low half. -/
theorem byte_halves (b : UInt8) :
    UInt8.ofNat (b.toNat / 16 % 16 * 16 + b.toNat % 16) = b := by
  have hb : b.toNat < 256 := b.toNat_lt
  have hhigh : b.toNat / 16 % 16 = b.toNat / 16 := Nat.mod_eq_of_lt (by omega)
  rw [hhigh, Nat.div_add_mod']
  exact UInt8.ofNat_toNat

/-- The pair reader inverts `toHex`. -/
theorem fromHexPairs_toHex (b : Bytes) : fromHexPairs (toHex b) = some b := by
  induction b with
  | nil => rfl
  | cons x xs ih =>
      have hhigh : x.toNat / 16 % 16 < 16 := Nat.mod_lt _ (by decide)
      have hlow : x.toNat % 16 < 16 := Nat.mod_lt _ (by decide)
      simp only [toHex, fromHexPairs, fromHexChar_hexDigit hhigh, fromHexChar_hexDigit hlow, ih,
        Option.map_some, byte_halves]

/-- Each byte is written as two digits. -/
@[simp] theorem toHex_length (b : Bytes) : (toHex b).length = 2 * b.length := by
  induction b with
  | nil => rfl
  | cons x xs ih =>
      simp only [toHex, List.length_cons, ih]
      omega

/-- The second digit of a `toHex` text is never the `x` of a `0x` prefix. -/
theorem toHex_take_two_ne (b : Bytes) : (toHex b).take 2 ≠ [48, 120] := by
  cases b with
  | nil => simp [toHex]
  | cons x xs =>
      have hlow : x.toNat % 16 < 16 := Nat.mod_lt _ (by decide)
      have hne : hexDigit (x.toNat % 16) ≠ 120 := by
        generalize x.toNat % 16 = n at hlow
        interval_cases n <;> decide
      simp [toHex, hne]

/-- Writing bytes as hexadecimal text and reading them back is the identity. -/
@[simp] theorem fromHex_toHex (b : Bytes) : fromHex (toHex b) = b := by
  unfold fromHex
  simp only [if_neg (toHex_take_two_ne b), toHex_length]
  rw [if_neg (by omega), fromHexPairs_toHex]
  rfl

/-- `toHex` is injective: no two byte strings share their text. -/
theorem toHex_injective : Function.Injective toHex := by
  intro a b h
  have := congrArg fromHex h
  rwa [fromHex_toHex, fromHex_toHex] at this

/-- Every character of a `toHex` text is one of the sixteen digits. -/
theorem mem_hexdigits_of_mem_toHex {b : Bytes} {c : UInt8} (h : c ∈ toHex b) :
    c ∈ hexdigits := by
  induction b with
  | nil => cases h
  | cons x xs ih =>
      have hdigit : ∀ n < 16, hexDigit n ∈ hexdigits := by decide
      simp only [toHex, List.mem_cons] at h
      rcases h with rfl | rfl | h
      · exact hdigit _ (Nat.mod_lt _ (by decide))
      · exact hdigit _ (Nat.mod_lt _ (by decide))
      · exact ih h

end TronWallet.Model
