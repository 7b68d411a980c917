import TronWallet.Model.Bytes

/-!
# SHA-256, HMAC and PBKDF2 of libscrypt

`sha256.c`: a context holds the state, the number of bits taken in as two words, and a
buffer of 64 bytes of which as many are in use as the number of bits says.  `Update` fills
the buffer, transforms the state when it is full, goes on with whole blocks straight from
its input, and leaves the rest in the buffer.  A transformation turns the eight working
variables by turning the indices and not the values.
-/

set_option autoImplicit false

namespace TronWallet.Model.Libscrypt

abbrev Word := BitVec 32

/-! ## Words and bytes -/

/-- SOURCE: libscrypt/sysendian.h:60-69 -/
def be32enc (x : Word) : Bytes :=
  [⟨((x >>> 24) &&& 0xff).setWidth 8⟩, ⟨((x >>> 16) &&& 0xff).setWidth 8⟩,
    ⟨((x >>> 8) &&& 0xff).setWidth 8⟩, ⟨(x &&& 0xff).setWidth 8⟩]

/-- One byte as a word. -/
def word (b : UInt8) : Word := b.toBitVec.setWidth 32

/-- SOURCE: libscrypt/sysendian.h:51-58 -/
def be32dec (p : Bytes) : Word :=
  word (p.getD 3 0) + (word (p.getD 2 0) <<< 8) + (word (p.getD 1 0) <<< 16) +
    (word (p.getD 0 0) <<< 24)

/-- SOURCE: libscrypt/sha256.c:40-47 -/
def be32enc_vect (src : List Word) : Bytes := src.flatMap be32enc

/-- SOURCE: libscrypt/sha256.c:53-60 -/
def be32dec_vect (src : Bytes) (len : ℕ) : List Word :=
  (List.range (len / 4)).map fun i => be32dec (src.drop (i * 4))

/-- `memcpy` to a place in an array. -/
def memcpy (dest : Bytes) (start : ℕ) (src : Bytes) : Bytes :=
  dest.mapIdx fun i b => if start ≤ i ∧ i < start + src.length then src.getD (i - start) 0 else b

/-- Copying into a buffer keeps its length. -/
@[simp] theorem length_memcpy (dest : Bytes) (start : ℕ) (src : Bytes) :
    (memcpy dest start src).length = dest.length := List.length_mapIdx

/-! ## The transformation -/

/-- SOURCE: libscrypt/sha256.c:63 -/
def Ch (x y z : Word) : Word := (x &&& (y ^^^ z)) ^^^ z

/-- SOURCE: libscrypt/sha256.c:64 -/
def Maj (x y z : Word) : Word := (x &&& (y ||| z)) ||| (y &&& z)

/-- SOURCE: libscrypt/sha256.c:65 -/
def SHR (x : Word) (n : ℕ) : Word := x >>> n

/-- SOURCE: libscrypt/sha256.c:66 -/
def ROTR (x : Word) (n : ℕ) : Word := (x >>> n) ||| (x <<< (32 - n))

/-- SOURCE: libscrypt/sha256.c:67 -/
def S0 (x : Word) : Word := ROTR x 2 ^^^ ROTR x 13 ^^^ ROTR x 22

/-- SOURCE: libscrypt/sha256.c:68 -/
def S1 (x : Word) : Word := ROTR x 6 ^^^ ROTR x 11 ^^^ ROTR x 25

/-- SOURCE: libscrypt/sha256.c:69 -/
def s0 (x : Word) : Word := ROTR x 7 ^^^ ROTR x 18 ^^^ SHR x 3

/-- SOURCE: libscrypt/sha256.c:70 -/
def s1 (x : Word) : Word := ROTR x 17 ^^^ ROTR x 19 ^^^ SHR x 10

/-- One round, on the working variables where the round finds them.
SOURCE: libscrypt/sha256.c:73-85 -/
def RNDr (S : List Word) (i : ℕ) (k : Word) : List Word :=
  let v := fun j => S.getD ((64 + j - i) % 8) 0
  let t0 := v 7 + S1 (v 4) + Ch (v 4) (v 5) (v 6) + k
  let t1 := S0 (v 0) + Maj (v 0) (v 1) (v 2)
  (S.modify ((67 - i) % 8) (· + t0)).set ((71 - i) % 8) (t0 + t1)

/-- The constants of the rounds. SOURCE: libscrypt/sha256.c:108-171 -/
def roundConstants : List Word :=
  [0x428a2f98, 0x71374491, 0xb5c0fbcf, 0xe9b5dba5, 0x3956c25b, 0x59f111f1, 0x923f82a4,
    0xab1c5ed5, 0xd807aa98, 0x12835b01, 0x243185be, 0x550c7dc3, 0x72be5d74, 0x80deb1fe,
    0x9bdc06a7, 0xc19bf174, 0xe49b69c1, 0xefbe4786, 0x0fc19dc6, 0x240ca1cc, 0x2de92c6f,
    0x4a7484aa, 0x5cb0a9dc, 0x76f988da, 0x983e5152, 0xa831c66d, 0xb00327c8, 0xbf597fc7,
    0xc6e00bf3, 0xd5a79147, 0x06ca6351, 0x14292967, 0x27b70a85, 0x2e1b2138, 0x4d2c6dfc,
    0x53380d13, 0x650a7354, 0x766a0abb, 0x81c2c92e, 0x92722c85, 0xa2bfe8a1, 0xa81a664b,
    0xc24b8b70, 0xc76c51a3, 0xd192e819, 0xd6990624, 0xf40e3585, 0x106aa070, 0x19a4c116,
    0x1e376c08, 0x2748774c, 0x34b0bcb5, 0x391c0cb3, 0x4ed8aa4a, 0x5b9cca4f, 0x682e6ff3,
    0x748f82ee, 0x78a5636f, 0x84c87814, 0x8cc70208, 0x90befffa, 0xa4506ceb, 0xbef9a3f7,
    0xc67178f2]

/-- The message schedule: each word is written behind those before it.
SOURCE: libscrypt/sha256.c:99-102 -/
def messageSchedule (block : Bytes) : List Word :=
  (List.range' 16 48).foldl
    (fun W i => W ++ [s1 (W.getD (i - 2) 0) + W.getD (i - 7) 0 + s0 (W.getD (i - 15) 0) +
      W.getD (i - 16) 0]) (be32dec_vect block 64)

/-- SOURCE: libscrypt/sha256.c:91-176 -/
def SHA256_Transform (state : List Word) (block : Bytes) : List Word :=
  let W := messageSchedule block
  let S := (List.range 64).foldl
    (fun S i => RNDr S i (W.getD i 0 + roundConstants.getD i 0)) state
  (List.range 8).map fun i => state.getD i 0 + S.getD i 0

/-! ## The context -/

/-- SOURCE: libscrypt/sha256.h:36-40 -/
structure SHA256_CTX where
  state : List Word
  /-- The upper word of the number of bits. -/
  count0 : Word
  /-- The lower word of the number of bits. -/
  count1 : Word
  buf : Bytes
  buf_length : buf.length = 64

/-- The buffer holds what it has held before. SOURCE: libscrypt/sha256.c:207-224 -/
def SHA256_Init (ctx : SHA256_CTX) : SHA256_CTX :=
  { ctx with
    state := [0x6A09E667, 0xBB67AE85, 0x3C6EF372, 0xA54FF53A, 0x510E527F, 0x9B05688C, 0x1F83D9AB,
      0x5BE0CD19]
    count0 := 0
    count1 := 0 }

/-- The whole blocks of an input. Returned are the state and the rest of the input; the bytes
of the input are enough rounds. SOURCE: libscrypt/sha256.c:259-264 -/
def transformBlocks : ℕ → List Word → Bytes → List Word × Bytes
  | 0, state, src => (state, src)
  | rounds + 1, state, src =>
    if 64 ≤ src.length then
      transformBlocks rounds (SHA256_Transform state (src.take 64)) (src.drop 64)
    else (state, src)

/-- The number of bytes in the buffer. SOURCE: libscrypt/sha256.c:198, 235 -/
def SHA256_CTX.left (ctx : SHA256_CTX) : ℕ := ((ctx.count1 >>> 3) &&& 0x3f).toNat

/-- The number of bits after `len` more bytes. SOURCE: libscrypt/sha256.c:237-244 -/
def SHA256_CTX.counted (ctx : SHA256_CTX) (len : ℕ) : SHA256_CTX :=
  let bitlen1 : Word := BitVec.ofNat 32 len <<< 3
  let bitlen0 : Word := BitVec.ofNat 32 (len >>> 29)
  let count1 := ctx.count1 + bitlen1
  { ctx with
    count0 := (if count1 < bitlen1 then ctx.count0 + 1 else ctx.count0) + bitlen0
    count1 := count1 }

/-- SOURCE: libscrypt/sha256.c:226-268 -/
def SHA256_Update (ctx : SHA256_CTX) (src : Bytes) : SHA256_CTX :=
  let r := ctx.left
  let ctx := ctx.counted src.length
  if src.length < 64 - r then
    { ctx with buf := memcpy ctx.buf r src, buf_length := by simp [ctx.buf_length] }
  else
    let buf := memcpy ctx.buf r (src.take (64 - r))
    let state := SHA256_Transform ctx.state buf
    let src := src.drop (64 - r)
    let (state, src) := transformBlocks src.length state src
    { ctx with
      state := state
      buf := memcpy buf 0 src
      buf_length := by simp [buf, ctx.buf_length] }

/-- SOURCE: libscrypt/sha256.c:178-183 -/
def PAD : Bytes := 0x80 :: List.replicate 63 0

/-- SOURCE: libscrypt/sha256.c:185-205 -/
def SHA256_Pad (ctx : SHA256_CTX) : SHA256_CTX :=
  let len := be32enc_vect [ctx.count0, ctx.count1]
  let r := ctx.left
  let plen := if r < 56 then 56 - r else 120 - r
  SHA256_Update (SHA256_Update ctx (PAD.take plen)) len

/-- A context cleared by `memset`. -/
def SHA256_CTX.cleared : SHA256_CTX where
  state := List.replicate 8 0
  count0 := 0
  count1 := 0
  buf := List.replicate 64 0
  buf_length := List.length_replicate

/-- The digest, and what is left of the context.
SOURCE: libscrypt/sha256.c:270-286 -/
def SHA256_Final (ctx : SHA256_CTX) : Bytes × SHA256_CTX :=
  (be32enc_vect (SHA256_Pad ctx).state, .cleared)

/-! ## HMAC -/

/-- SOURCE: libscrypt/sha256.h:42-45 -/
structure HMAC_SHA256_CTX where
  ictx : SHA256_CTX
  octx : SHA256_CTX

/-- A block of one byte with the key added to its front.
SOURCE: libscrypt/sha256.c:307-309, 314-316 -/
def keyPad (c : UInt8) (K : Bytes) : Bytes :=
  (List.replicate 64 c).mapIdx fun i b => if i < K.length then b ^^^ K.getD i 0 else b

/-- SOURCE: libscrypt/sha256.c:288-321 -/
def HMAC_SHA256_Init (ctx : HMAC_SHA256_CTX) (K : Bytes) : HMAC_SHA256_CTX :=
  let (K, ictx) :=
    if 64 < K.length then SHA256_Final (SHA256_Update (SHA256_Init ctx.ictx) K)
    else (K, ctx.ictx)
  { ictx := SHA256_Update (SHA256_Init ictx) (keyPad 0x36 K)
    octx := SHA256_Update (SHA256_Init ctx.octx) (keyPad 0x5c K) }

/-- SOURCE: libscrypt/sha256.c:323-330 -/
def HMAC_SHA256_Update (ctx : HMAC_SHA256_CTX) (src : Bytes) : HMAC_SHA256_CTX :=
  { ctx with ictx := SHA256_Update ctx.ictx src }

/-- SOURCE: libscrypt/sha256.c:332-349 -/
def HMAC_SHA256_Final (ctx : HMAC_SHA256_CTX) : Bytes × HMAC_SHA256_CTX :=
  let (ihash, ictx) := SHA256_Final ctx.ictx
  let (digest, octx) := SHA256_Final (SHA256_Update ctx.octx ihash)
  (digest, { ictx := ictx, octx := octx })

/-! ## PBKDF2 -/

/-- A block of a derived key: `U` is made again and again of the one before, and `T` is the sum
of all. SOURCE: libscrypt/sha256.c:373-396 -/
def pbkdf2Block (PShctx : HMAC_SHA256_CTX) (passwd : Bytes) (c i : ℕ) : Bytes :=
  let ivec := be32enc (BitVec.ofNat 32 (i + 1))
  let (U, hctx) := HMAC_SHA256_Final (HMAC_SHA256_Update PShctx ivec)
  let (T, _, _) := (List.range (c - 1)).foldl
    (fun (T, U, hctx) _ =>
      let (U, hctx) := HMAC_SHA256_Final (HMAC_SHA256_Update (HMAC_SHA256_Init hctx passwd) U)
      (List.zipWith (· ^^^ ·) T U, U, hctx)) (U, U, hctx)
  T

/-- The context is on the stack and holds whatever it holds.
SOURCE: libscrypt/sha256.c:351-406 -/
def PBKDF2_SHA256 (PShctx : HMAC_SHA256_CTX) (passwd salt : Bytes) (c dkLen : ℕ) : Bytes :=
  let PShctx := HMAC_SHA256_Update (HMAC_SHA256_Init PShctx passwd) salt
  (List.range ((dkLen + 31) / 32)).flatMap fun i =>
    let clen := if 32 < dkLen - i * 32 then 32 else dkLen - i * 32
    (pbkdf2Block PShctx passwd c i).take clen

end TronWallet.Model.Libscrypt
