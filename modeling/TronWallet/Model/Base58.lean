import TronWallet.Model.Platform

/-!
# Base58 and TRON addresses

`EncodeBase58` and `DecodeBase58` of `libdevcore/base58.cpp`, with and without a checksum,
and the address functions of `wallet/core/core_util.cpp`.  The big-endian digit buffer is
written here with its least significant digit first, which is the direction the reverse
iterator of the source walks; `mulAddLoop` is that walk, with the running length that lets
it stop early.

Of the encoded text the wallet needs two things.  Its characters are letters and digits
(`mem_encodeBase58`), so that an address is one key of a JSON dictionary, and
`toAddress` inverts `toTronAddress`.
-/

set_option autoImplicit false

namespace TronWallet.Model

/-- All alphanumeric characters except for `0`, `I`, `O` and `l`.
SOURCE: libdevcore/base58.cpp:12 -/
def pszBase58 : Bytes :=
  [49, 50, 51, 52, 53, 54, 55, 56, 57,
   65, 66, 67, 68, 69, 70, 71, 72, 74, 75, 76, 77, 78, 80, 81, 82, 83, 84, 85, 86, 87, 88, 89,
   90, 97, 98, 99, 100, 101, 102, 103, 104, 105, 106, 107, 109, 110, 111, 112, 113, 114, 115,
   116, 117, 118, 119, 120, 121, 122]

/-- The loop `number = number * factor + carry` over the digits in base `base`, least
significant first. It stops when the carry is used up and the digits in use, `length` many,
are passed. Returned are the digits, the carry left and the number of digits visited.
SOURCE: libdevcore/base58.cpp:55-59, 98-102 -/
def mulAddLoop (base factor length : ℕ) : List ℕ → ℕ → ℕ → List ℕ × ℕ × ℕ
  | [], carry, i => ([], carry, i)
  | d :: ds, carry, i =>
    if carry ≠ 0 ∨ i < length then
      let carry := carry + factor * d
      let (ds', carry', i') := mulAddLoop base factor length ds (carry / base) (i + 1)
      (carry % base :: ds', carry', i')
    else (d :: ds, carry, i)

/-- The loop over the bytes of the input: the digits and the length in use.
SOURCE: libdevcore/base58.cpp:94-107 -/
def encodeLoop : Bytes → List ℕ → ℕ → List ℕ × ℕ
  | [], b58, length => (b58, length)
  | c :: cs, b58, length =>
    let (b58', _, length') := mulAddLoop 58 256 length b58 c.toNat 0
    encodeLoop cs b58' length'

/-- SOURCE: libdevcore/base58.cpp:81-119 -/
def encodeBase58 (b : Bytes) : Bytes :=
  let zeroes := (b.takeWhile (· = 0)).length
  let rest := b.dropWhile (· = 0)
  let size := rest.length * 138 / 100 + 1
  let (b58, length) := encodeLoop rest (List.replicate size 0) 0
  let digits := ((b58.take length).reverse).dropWhile (· = 0)
  List.replicate zeroes 49 ++ digits.map fun d => pszBase58.getD d 0

/-! ## Decoding -/

/-- The value of each character, `-1` for those that are none of the 58.
SOURCE: libdevcore/base58.cpp:13-30 -/
def mapBase58 : List ℤ :=
  [-1, -1, -1, -1, -1, -1, -1, -1, -1, -1, -1, -1, -1, -1, -1, -1,
   -1, -1, -1, -1, -1, -1, -1, -1, -1, -1, -1, -1, -1, -1, -1, -1,
   -1, -1, -1, -1, -1, -1, -1, -1, -1, -1, -1, -1, -1, -1, -1, -1,
   -1, 0, 1, 2, 3, 4, 5, 6, 7, 8, -1, -1, -1, -1, -1, -1,
   -1, 9, 10, 11, 12, 13, 14, 15, 16, -1, 17, 18, 19, 20, 21, -1,
   22, 23, 24, 25, 26, 27, 28, 29, 30, 31, 32, -1, -1, -1, -1, -1,
   -1, 33, 34, 35, 36, 37, 38, 39, 40, 41, 42, 43, -1, 44, 45, 46,
   47, 48, 49, 50, 51, 52, 53, 54, 55, 56, 57, -1, -1, -1, -1, -1,
   -1, -1, -1, -1, -1, -1, -1, -1, -1, -1, -1, -1, -1, -1, -1, -1,
   -1, -1, -1, -1, -1, -1, -1, -1, -1, -1, -1, -1, -1, -1, -1, -1,
   -1, -1, -1, -1, -1, -1, -1, -1, -1, -1, -1, -1, -1, -1, -1, -1,
   -1, -1, -1, -1, -1, -1, -1, -1, -1, -1, -1, -1, -1, -1, -1, -1,
   -1, -1, -1, -1, -1, -1, -1, -1, -1, -1, -1, -1, -1, -1, -1, -1,
   -1, -1, -1, -1, -1, -1, -1, -1, -1, -1, -1, -1, -1, -1, -1, -1,
   -1, -1, -1, -1, -1, -1, -1, -1, -1, -1, -1, -1, -1, -1, -1, -1,
   -1, -1, -1, -1, -1, -1, -1, -1, -1, -1, -1, -1, -1, -1, -1, -1]

/-- The white space of the C locale. -/
def isspace (c : UInt8) : Bool := c = 32 ∨ (9 ≤ c ∧ c ≤ 13)

/-- The characters of a string up to its first zero byte (`c_str`). -/
def cStr (s : Bytes) : Bytes := s.takeWhile (· ≠ 0)

/-- The loop over the characters up to white space: the digits, the length in use and the
characters left, or nothing at an invalid character.
SOURCE: libdevcore/base58.cpp:49-65 -/
def decodeLoop : Bytes → List ℕ → ℕ → Option (List ℕ × ℕ × Bytes)
  | [], b256, length => some (b256, length, [])
  | c :: cs, b256, length =>
    if isspace c then some (b256, length, c :: cs)
    else
      let carry := mapBase58.getD c.toNat (-1)
      if carry = -1 then none
      else
        let (b256', _, length') := mulAddLoop 256 58 length b256 carry.toNat 0
        decodeLoop cs b256' length'

/-- Decoding the characters of a zero-terminated string.
SOURCE: libdevcore/base58.cpp:32-79 -/
def decodeBase58 (psz : Bytes) : Option Bytes :=
  let psz := psz.dropWhile isspace
  let zeroes := (psz.takeWhile (· = 49)).length
  let psz := psz.dropWhile (· = 49)
  let size := psz.length * 733 / 1000 + 1
  match decodeLoop psz (List.replicate size 0) 0 with
  | none => none
  | some (b256, length, psz) =>
    if psz.dropWhile isspace ≠ [] then none
    else
      let digits := ((b256.take length).reverse).dropWhile (· = 0)
      some (List.replicate zeroes 0 ++ digits.map UInt8.ofNat)

/-! ## Checksums -/

/-- SOURCE: libdevcore/base58.cpp:131-140 -/
def encodeBase58Check (P : Platform) (vchIn : Bytes) : Bytes :=
  let hash := P.sha256 vchIn
  let hash := P.sha256 hash.m_data
  encodeBase58 (vchIn ++ hash.m_data.take 4)

/-- Whether the text is well formed and its checksum right, and what it encodes.
SOURCE: libdevcore/base58.cpp:142-166 -/
def decodeBase58Check (P : Platform) (str : Bytes) : Bool × Bytes :=
  match decodeBase58 (cStr str) with
  | none => (false, [])
  | some vch =>
    if vch.length < 4 then (false, [])
    else
      let check := vch.take (vch.length - 4)
      let hash := P.sha256 check
      let hash := P.sha256 hash.m_data
      if hash.m_data.take 4 ≠ vch.drop (vch.length - 4) then (false, [])
      else (true, check)

/-! ## Addresses -/

/-- SOURCE: wallet/core/core_util.cpp:65-69 -/
def addressEncodeBase58Check (P : Platform) (address : Bytes) : Bytes :=
  encodeBase58Check P address

/-- SOURCE: wallet/core/core_util.cpp:71-77 -/
def addressDecodeBase58Check (P : Platform) (encode_address : Bytes) : Bool × Bytes :=
  decodeBase58Check P encode_address

/-- Whether a text is the address of an account, and its bytes.
SOURCE: wallet/core/core_util.cpp:150-156 -/
def checkAddress (P : Platform) (address : Bytes) : Bool × Bytes :=
  if address = [] then (false, address) else addressDecodeBase58Check P address

/-- The 21 bytes of a TRON address. SOURCE: wallet/core/core_util.cpp:79-84 -/
def toTronAddress (address : Address) : Bytes := 0x41 :: address.m_data

/-- SOURCE: wallet/core/core_util.cpp:86-95 -/
def toAddress (tron_address : Bytes) : Address :=
  match tron_address with
  | [] => ZeroAddress
  | _ :: rest => FixedHash.ofBytes rest

/-- `ToAddress` undoes `ToTronAddress`. -/
@[simp] theorem toAddress_toTronAddress (a : Address) : toAddress (toTronAddress a) = a := by
  simp [toAddress, toTronAddress]

/-- No bytes give the zero address. -/
@[simp] theorem toAddress_nil : toAddress [] = 0 := rfl

/-- A TRON address is not empty: it begins with the prefix byte. -/
@[simp] theorem toTronAddress_ne_nil (a : Address) : toTronAddress a ≠ [] := by
  simp [toTronAddress]

/-- Different addresses have different TRON addresses. -/
theorem toTronAddress_injective : Function.Injective toTronAddress := by
  intro a b h
  have := congrArg toAddress h
  rwa [toAddress_toTronAddress, toAddress_toTronAddress] at this

/-! ## The characters of an encoded text -/

/-- The loop leaves digits of the base. -/
theorem mulAddLoop_lt {base factor length : ℕ} (hbase : 0 < base) (ds : List ℕ) (carry i : ℕ)
    (h : ∀ d ∈ ds, d < base) :
    ∀ d ∈ (mulAddLoop base factor length ds carry i).1, d < base := by
  induction ds generalizing carry i with
  | nil =>
      intro d hd
      cases hd
  | cons x xs ih =>
      intro d hd
      unfold mulAddLoop at hd
      by_cases hc : carry ≠ 0 ∨ i < length
      · rw [if_pos hc] at hd
        rcases List.mem_cons.mp hd with rfl | hd
        · exact Nat.mod_lt _ hbase
        · exact ih _ _ (fun d hd => h d (List.mem_cons_of_mem _ hd)) d hd
      · rw [if_neg hc] at hd
        exact h d hd

/-- The buffer holds base-58 digits throughout. -/
theorem encodeLoop_lt (cs : Bytes) (b58 : List ℕ) (length : ℕ) (h : ∀ d ∈ b58, d < 58) :
    ∀ d ∈ (encodeLoop cs b58 length).1, d < 58 := by
  induction cs generalizing b58 length with
  | nil => exact h
  | cons c cs ih => exact ih _ _ (mulAddLoop_lt (by decide) b58 c.toNat 0 h)

/-- Every character of an encoded text is one of the 58. -/
theorem mem_encodeBase58 {b : Bytes} {c : UInt8} (h : c ∈ encodeBase58 b) : c ∈ pszBase58 := by
  have hdigit : ∀ d < 58, pszBase58.getD d 0 ∈ pszBase58 := by decide
  unfold encodeBase58 at h
  simp only [List.mem_append, List.mem_replicate, List.mem_map] at h
  rcases h with ⟨-, rfl⟩ | ⟨d, hd, rfl⟩
  · decide
  · apply hdigit
    have hmem := List.mem_of_mem_take (List.mem_reverse.mp ((List.dropWhile_sublist _).mem hd))
    exact encodeLoop_lt _ _ _ (fun d hd => by rw [(List.mem_replicate.mp hd).2]; decide) d hmem

end TronWallet.Model
