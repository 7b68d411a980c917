import TronWallet.Model.Sha256

/-!
# Scrypt of libscrypt

`crypto_scrypt-nosse.c`: everything happens in rows of words that are changed in place.  Two
rows `X` and `Y` take turns, so that each loop goes two steps at a time.
-/

set_option autoImplicit false

namespace TronWallet.Model.Libscrypt

/-! ## Words and rows of words -/

/-- SOURCE: libscrypt/sysendian.h:97-104 -/
def le32dec (p : Bytes) : Word :=
  word (p.getD 0 0) + (word (p.getD 1 0) <<< 8) + (word (p.getD 2 0) <<< 16) +
    (word (p.getD 3 0) <<< 24)

/-- SOURCE: libscrypt/sysendian.h:106-115 -/
def le32enc (x : Word) : Bytes :=
  [⟨(x &&& 0xff).setWidth 8⟩, ⟨((x >>> 8) &&& 0xff).setWidth 8⟩,
    ⟨((x >>> 16) &&& 0xff).setWidth 8⟩, ⟨((x >>> 24) &&& 0xff).setWidth 8⟩]

/-- `len` entries of an array from `start` on. -/
def slice {α : Type} (a : List α) (start len : ℕ) : List α := (a.drop start).take len

/-- SOURCE: libscrypt/crypto_scrypt-nosse.c:63-73 -/
def blkxor (dest src : List Word) : List Word := List.zipWith (· ^^^ ·) dest src

/-! ## The Salsa20/8 core -/

/-- SOURCE: libscrypt/crypto_scrypt-nosse.c:87 -/
def R (a : Word) (b : ℕ) : Word := (a <<< b) ||| (a >>> (32 - b))

/-- Four words of a column or a row, each changed by two others.
SOURCE: libscrypt/crypto_scrypt-nosse.c:89-90 -/
def quarter (a b c d : ℕ) (x : List Word) : List Word :=
  let x := x.set b (x.getD b 0 ^^^ R (x.getD a 0 + x.getD d 0) 7)
  let x := x.set c (x.getD c 0 ^^^ R (x.getD b 0 + x.getD a 0) 9)
  let x := x.set d (x.getD d 0 ^^^ R (x.getD c 0 + x.getD b 0) 13)
  x.set a (x.getD a 0 ^^^ R (x.getD d 0 + x.getD c 0) 18)

/-- SOURCE: libscrypt/crypto_scrypt-nosse.c:88-99 -/
def columns (x : List Word) : List Word :=
  quarter 15 3 7 11 (quarter 10 14 2 6 (quarter 5 9 13 1 (quarter 0 4 8 12 x)))

/-- SOURCE: libscrypt/crypto_scrypt-nosse.c:101-112 -/
def rows (x : List Word) : List Word :=
  quarter 15 12 13 14 (quarter 10 11 8 9 (quarter 5 6 7 4 (quarter 0 1 2 3 x)))

/-- SOURCE: libscrypt/crypto_scrypt-nosse.c:75-117 -/
def salsa20_8 (B : List Word) : List Word :=
  List.zipWith (· + ·) B ((List.range 4).foldl (fun x _ => rows (columns x)) B)

/-! ## Mixing -/

/-- The output is written in its two halves, each from the front.
SOURCE: libscrypt/crypto_scrypt-nosse.c:119-151 -/
def blockmix_salsa8 (Bin : List Word) (r : ℕ) : List Word :=
  let X := slice Bin ((2 * r - 1) * 16) 16
  let (_, lower, upper) := (List.range r).foldl
    (fun (X, lower, upper) k =>
      let i := 2 * k
      let X := salsa20_8 (blkxor X (slice Bin (i * 16) 16))
      let lower := lower ++ X
      let X := salsa20_8 (blkxor X (slice Bin (i * 16 + 16) 16))
      (X, lower, upper ++ X)) (X, [], [])
  lower ++ upper

/-- SOURCE: libscrypt/crypto_scrypt-nosse.c:153-163 -/
def integerify (B : List Word) (r : ℕ) : BitVec 64 :=
  ((B.getD ((2 * r - 1) * 16 + 1) 0).setWidth 64 <<< 32) +
    (B.getD ((2 * r - 1) * 16) 0).setWidth 64

/-- The row kept at the number a row gives.
SOURCE: libscrypt/crypto_scrypt-nosse.c:204-215 -/
def kept (V : List Word) (r N : ℕ) (X : List Word) : List Word :=
  let j := (integerify X r &&& BitVec.ofNat 64 (N - 1)).toNat
  slice V (j * (32 * r)) (32 * r)

/-- The rows are kept in `V` one behind the other.
SOURCE: libscrypt/crypto_scrypt-nosse.c:165-222 -/
def smix (B : Bytes) (r N : ℕ) : Bytes :=
  let X := (List.range (32 * r)).map fun k => le32dec (B.drop (4 * k))
  let (V, X) := (List.range ((N + 1) / 2)).foldl
    (fun (V, X) _ =>
      let V := V ++ X
      let Y := blockmix_salsa8 X r
      let V := V ++ Y
      (V, blockmix_salsa8 Y r)) ([], X)
  let X := (List.range ((N + 1) / 2)).foldl
    (fun X _ =>
      let Y := blockmix_salsa8 (blkxor X (kept V r N X)) r
      blockmix_salsa8 (blkxor Y (kept V r N Y)) r) X
  X.flatMap le32enc

/-! ## Scrypt -/

/-- What the parameters are checked for, with a `size_t` of 64 bits.
SOURCE: libscrypt/crypto_scrypt-nosse.c:244-270 -/
def parametersOk (N r p buflen : ℕ) : Bool :=
  !(((2 ^ 32 - 1) * 32 < buflen) || (2 ^ 30 ≤ r * p) || (r == 0 || p == 0) ||
    (N &&& (N - 1) != 0 || N < 2) ||
    ((2 ^ 64 - 1) / 128 / p < r || (2 ^ 64 - 1) / 128 / r < N))

/-- `memory` says whether the memory asked for is there and can be given back; the contexts are
those on the stack. The sizes of the lanes are products of words of 32 bits.
SOURCE: libscrypt/crypto_scrypt-nosse.c:224-342 -/
def libscrypt_scrypt (first second : HMAC_SHA256_CTX) (memory : Bool) (passwd salt : Bytes)
    (N r p buflen : ℕ) : Option Bytes :=
  if !parametersOk N r p buflen then none
  else if !memory then none
  else
    let B := PBKDF2_SHA256 first passwd salt 1 (p * 128 * r % 2 ^ 32)
    let B := (List.range p).flatMap fun i => smix (slice B (i * 128 * r % 2 ^ 32) (128 * r)) r N
    some (PBKDF2_SHA256 second passwd B 1 buflen)

end TronWallet.Model.Libscrypt
