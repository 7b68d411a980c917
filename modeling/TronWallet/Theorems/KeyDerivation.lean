import TronWallet.Lib.Hmac
import TronWallet.Analysis.Scrypt
import TronWallet.Model.Platform

/-!
# The derivation of keys

Key files may be protected by scrypt, which is built on the SHA-256, HMAC and PBKDF2 of
libscrypt.  These work on contexts that take their text in pieces and are copied in the
middle.  However the text is cut, and whatever the contexts on the stack have held before,
they compute the functions they are named after.
-/

set_option autoImplicit false

namespace TronWallet.Theorems

open TronWallet.Lib TronWallet.Lib.Hmac TronWallet.Model TronWallet.Model.Libscrypt
open TronWallet.Analysis.Sha256

namespace KeyDerivation

/-- HMAC-SHA-256. -/
def hmacSha256 : Bytes → Bytes → Bytes := hmac Sha256.hash 64

/-- PBKDF2 with HMAC-SHA-256, the number of a block in four bytes. -/
def pbkdf2Sha256 : Bytes → Bytes → ℕ → ℕ → Bytes :=
  pbkdf2 hmacSha256 32 fun i => Words.toBE 4 (BitVec.ofNat 32 i)

/-! ## HMAC -/

/-- A context has been set up with a key and has taken in a text. -/
structure HmacStreams (ctx : HMAC_SHA256_CTX) (K text : Bytes) : Prop where
  inner : Streams ctx.ictx ((blockKey Sha256.hash 64 K).map (· ^^^ 0x36) ++ text)
  outer : Streams ctx.octx ((blockKey Sha256.hash 64 K).map (· ^^^ 0x5c))

/-- The pad of a key: the key with zeros behind it, and the constant added. -/
theorem keyPad_eq (c : UInt8) {K : Bytes} (hK : K.length ≤ 64) :
    keyPad c K = (K ++ List.replicate (64 - K.length) 0).map (· ^^^ c) := by
  apply List.ext_getElem
  · simp [keyPad]
    omega
  · intro i _ _
    simp only [keyPad, List.getElem_mapIdx, List.getElem_replicate, List.getElem_map]
    split_ifs with hi
    · simp [hi, UInt8.xor_comm]
    · simp [List.getElem_append_right (Nat.le_of_not_lt hi)]

/-- A new context is one that has read nothing. -/
theorem hmacStreams_init (ctx : HMAC_SHA256_CTX) (K : Bytes) :
    HmacStreams (HMAC_SHA256_Init ctx K) K [] := by
  rw [HMAC_SHA256_Init]
  by_cases hK : 64 < K.length
  · have hhash := ((streams_init ctx.ictx).update K).final
    rw [List.nil_append] at hhash
    have hkey : ∀ c, keyPad c (Sha256.hash K) = (blockKey Sha256.hash 64 K).map (· ^^^ c) := by
      intro c
      rw [keyPad_eq c (by simp), blockKey, if_pos hK]
    simp only [if_pos hK, hhash, hkey]
    refine ⟨?_, ?_⟩
    · simpa using (streams_init _).update ((blockKey Sha256.hash 64 K).map (· ^^^ 0x36))
    · simpa using (streams_init _).update ((blockKey Sha256.hash 64 K).map (· ^^^ 0x5c))
  · have hkey : ∀ c, keyPad c K = (blockKey Sha256.hash 64 K).map (· ^^^ c) := by
      intro c
      rw [keyPad_eq c (by omega), blockKey, if_neg hK]
    simp only [if_neg hK, hkey]
    refine ⟨?_, ?_⟩
    · simpa using (streams_init _).update ((blockKey Sha256.hash 64 K).map (· ^^^ 0x36))
    · simpa using (streams_init _).update ((blockKey Sha256.hash 64 K).map (· ^^^ 0x5c))

variable {ctx : HMAC_SHA256_CTX} {K text : Bytes}

/-- A piece is read behind what has been read. -/
theorem HmacStreams.update (h : HmacStreams ctx K text) (src : Bytes) :
    HmacStreams (HMAC_SHA256_Update ctx src) K (text ++ src) where
  inner := by
    have hnext := h.inner.update src
    rwa [List.append_assoc] at hnext
  outer := h.outer

/-- Pieces are read one behind the other. -/
theorem HmacStreams.updates (h : HmacStreams ctx K text) (pieces : List Bytes) :
    HmacStreams (pieces.foldl HMAC_SHA256_Update ctx) K (text ++ pieces.flatten) := by
  induction pieces generalizing ctx text with
  | nil => simpa using h
  | cons piece pieces ih =>
    have hnext := ih (h.update piece)
    rw [List.append_assoc] at hnext
    simpa using hnext

/-- The digest is the HMAC of all that has been read. -/
theorem HmacStreams.final (h : HmacStreams ctx K text) :
    (HMAC_SHA256_Final ctx).1 = hmacSha256 K text := by
  rw [HMAC_SHA256_Final]
  simp only [h.inner.final]
  rw [(h.outer.update _).final, hmacSha256, hmac]

/-! ## PBKDF2 -/

/-- An HMAC has 32 bytes. -/
theorem length_hmacSha256 (K text : Bytes) : (hmacSha256 K text).length = 32 := by
  simp [hmacSha256, hmac]

/-- The loop goes along the chain and adds up what it finds. -/
theorem foldl_chain (hctx : HMAC_SHA256_CTX) (passwd U : Bytes) (n : ℕ) :
    ∃ hctx', (List.range n).foldl (fun (x : Bytes × Bytes × HMAC_SHA256_CTX) _ =>
        let final := HMAC_SHA256_Final (HMAC_SHA256_Update (HMAC_SHA256_Init x.2.2 passwd) x.2.1)
        (List.zipWith (· ^^^ ·) x.1 final.1, final.1, final.2)) (U, U, hctx) =
      (sumChain hmacSha256 passwd U n, chain hmacSha256 passwd U n, hctx') := by
  induction n with
  | zero => exact ⟨hctx, rfl⟩
  | succ n ih =>
    obtain ⟨hctx', hfold⟩ := ih
    have hfinal := ((hmacStreams_init hctx' passwd).update (chain hmacSha256 passwd U n)).final
    rw [List.nil_append] at hfinal
    refine ⟨(HMAC_SHA256_Final (HMAC_SHA256_Update (HMAC_SHA256_Init hctx' passwd)
      (chain hmacSha256 passwd U n))).2, ?_⟩
    rw [List.range_succ, List.foldl_append, hfold, List.foldl_cons, List.foldl_nil]
    simp only [hfinal]
    rw [sumChain, sumChain, List.range_succ, List.foldl_append, List.foldl_cons, List.foldl_nil,
      chain]

/-- The loop for one block is the sum of the chain that begins with the salt and the number of
the block. -/
theorem pbkdf2Block_eq {PShctx : HMAC_SHA256_CTX} {passwd salt : Bytes}
    (h : HmacStreams PShctx passwd salt) (c i : ℕ) :
    pbkdf2Block PShctx passwd c i =
      sumChain hmacSha256 passwd
        (hmacSha256 passwd (salt ++ Words.toBE 4 (BitVec.ofNat 32 (i + 1)))) (c - 1) := by
  have hfinal := (h.update (be32enc (BitVec.ofNat 32 (i + 1)))).final
  rw [be32enc_eq] at hfinal
  rw [pbkdf2Block, be32enc_eq]
  simp only [hfinal]
  obtain ⟨hctx', hfold⟩ := foldl_chain
    (HMAC_SHA256_Final (HMAC_SHA256_Update PShctx
      (Words.toBE 4 (BitVec.ofNat 32 (i + 1))))).2 passwd
    (hmacSha256 passwd (salt ++ Words.toBE 4 (BitVec.ofNat 32 (i + 1)))) (c - 1)
  exact congrArg Prod.fst hfold

/-- The loop over the blocks is PBKDF2. -/
theorem PBKDF2_SHA256_eq (ctx : HMAC_SHA256_CTX) (passwd salt : Bytes) (c dkLen : ℕ) :
    PBKDF2_SHA256 ctx passwd salt c dkLen = pbkdf2Sha256 passwd salt c dkLen := by
  have hctx := (hmacStreams_init ctx passwd).update salt
  rw [List.nil_append] at hctx
  have hlength : ∀ i, (pbkdf2Block (HMAC_SHA256_Update (HMAC_SHA256_Init ctx passwd) salt)
      passwd c i).length = 32 := by
    intro i
    rw [pbkdf2Block_eq hctx]
    exact length_sumChain length_hmacSha256 (length_hmacSha256 _ _) _
  have hcut : ∀ i, (pbkdf2Block (HMAC_SHA256_Update (HMAC_SHA256_Init ctx passwd) salt)
      passwd c i).take (if 32 < dkLen - i * 32 then 32 else dkLen - i * 32) =
      (pbkdf2Block (HMAC_SHA256_Update (HMAC_SHA256_Init ctx passwd) salt) passwd c i).take
        (dkLen - i * 32) := by
    intro i
    split_ifs with h
    · rw [List.take_of_length_le (by rw [hlength]), List.take_of_length_le (by rw [hlength]; omega)]
    · rfl
  rw [PBKDF2_SHA256]
  simp only [hcut]
  rw [flatMap_take hlength]
  rw [funext (pbkdf2Block_eq hctx c)]
  rfl

/-! ## Scrypt -/

/-- The parameters scrypt is asked for are in order, and the memory they need has an address. -/
structure Accepted (N r p buflen : ℕ) : Prop where
  cost : ∃ k, N = 2 ^ (k + 1)
  blocks : 0 < r
  lanes : 0 < p
  size : r * p < 2 ^ 30
  memory : 128 * r * N < 2 ^ 64
  output : buflen ≤ (2 ^ 32 - 1) * 32

/-- The sizes of what is worked on, products of words of 32 bits, fit such words. -/
structure SizesFit (r p : ℕ) : Prop where
  lanes : p * 128 * r < 2 ^ 32
  rows : 256 * r + 64 < 2 ^ 32

/-- The test with `&`: a number above one is a power of two. -/
theorem and_sub_one_eq_zero_iff {N : ℕ} :
    N &&& (N - 1) = 0 ∧ 2 ≤ N ↔ ∃ k, N = 2 ^ (k + 1) := by
  constructor
  · rintro ⟨hand, hle⟩
    obtain ⟨k, hk⟩ := (Nat.and_sub_one_eq_zero_iff_isPowerOfTwo (by omega)).mp hand
    cases k with
    | zero => omega
    | succ k => exact ⟨k, hk⟩
  · rintro ⟨k, rfl⟩
    have hpos : 0 < 2 ^ k := Nat.pow_pos (by decide)
    have hle : 2 ≤ 2 ^ (k + 1) := by
      rw [Nat.pow_succ]
      omega
    exact ⟨(Nat.and_sub_one_eq_zero_iff_isPowerOfTwo (by omega)).mpr ⟨k + 1, rfl⟩, hle⟩

/-- The checks let through exactly the parameters that are accepted. -/
theorem parametersOk_iff {N r p buflen : ℕ} :
    parametersOk N r p buflen = true ↔ Accepted N r p buflen := by
  simp only [parametersOk, Bool.not_eq_true', Bool.or_eq_false_iff, decide_eq_false_iff_not,
    Nat.not_lt, Nat.not_le, beq_eq_false_iff_ne, bne_eq_false_iff_eq]
  constructor
  · rintro ⟨⟨⟨⟨hout, hsize⟩, hr, hp⟩, hpower⟩, -, haddress⟩
    have hr' : 0 < r := Nat.pos_of_ne_zero hr
    refine ⟨and_sub_one_eq_zero_iff.mp hpower, hr', Nat.pos_of_ne_zero hp, hsize, ?_, hout⟩
    rw [Nat.div_div_eq_div_mul, Nat.le_div_iff_mul_le (by omega), Nat.mul_comm] at haddress
    omega
  · rintro ⟨hcost, hr, hp, hsize, haddress, hout⟩
    refine ⟨⟨⟨⟨hout, hsize⟩, hr.ne', hp.ne'⟩, and_sub_one_eq_zero_iff.mpr hcost⟩, ?_, ?_⟩
    · rw [Nat.le_div_iff_mul_le hp]
      omega
    · rw [Nat.div_div_eq_div_mul, Nat.le_div_iff_mul_le (by omega), Nat.mul_comm]
      omega

/-- The blocks that are mixed on their own. -/
theorem smix_slice {B : Bytes} {r p k i : ℕ} (hB : B.length = p * (128 * r))
    (hsizes : SizesFit r p) (hr : 0 < r) (hk : k ≤ 62) (hi : i < p) :
    smix (slice B (i * 128 * r % 2 ^ 32) (128 * r)) r (2 ^ (k + 1)) =
      Scrypt.mixed (2 ^ (k + 1)) r (Scrypt.block (128 * r) B i) := by
  have hlt : i * 128 * r < 2 ^ 32 := by
    have hle : i * 128 * r ≤ p * 128 * r :=
      Nat.mul_le_mul_right r (Nat.mul_le_mul_right 128 hi.le)
    have hfit := hsizes.lanes
    omega
  rw [Nat.mod_eq_of_lt hlt, Nat.mul_assoc]
  exact Analysis.Scrypt.smix_eq (Scrypt.length_block _ hB hi) hr hk

/-- Scrypt over PBKDF2. -/
def scryptSha256 : Bytes → Bytes → ℕ → ℕ → ℕ → ℕ → Bytes :=
  Scrypt.scrypt fun P S n => pbkdf2Sha256 P S 1 n

/-- A derived key, byte by byte. -/
theorem pbkdf2Sha256_eq_map (P S : Bytes) (c n : ℕ) :
    pbkdf2Sha256 P S c n =
      (List.range n).map fun i => (pbkdf2Sha256 P S c (i + 1)).getD i 0 :=
  pbkdf2_eq_map (by decide) length_hmacSha256 _ P S c n

/-- The keys of scrypt come from one stream of bytes, as the wallet's code has them. -/
theorem exists_scryptStream (P : Platform) :
    ∃ stream, ∀ pass salt N r p n,
      Platform.scrypt { P with scryptStream := stream } pass salt N r p n =
        scryptSha256 pass salt N r p n := by
  refine ⟨fun pass salt N r p i => (scryptSha256 pass salt N r p (i + 1)).getD i 0, ?_⟩
  intro pass salt N r p n
  simp only [Platform.scrypt, scryptSha256, Scrypt.scrypt]
  rw [← pbkdf2Sha256_eq_map]

end KeyDerivation

open KeyDerivation

/-- **SHA-256 and HMAC do not depend on how a text is cut into pieces**, nor on what the
contexts have held before. -/
theorem digests_eq (ctx : SHA256_CTX) (hctx : HMAC_SHA256_CTX) (K : Bytes)
    (pieces : List Bytes) :
    (SHA256_Final (pieces.foldl SHA256_Update (SHA256_Init ctx))).1 =
        Sha256.hash pieces.flatten ∧
      (HMAC_SHA256_Final (pieces.foldl HMAC_SHA256_Update (HMAC_SHA256_Init hctx K))).1 =
        hmacSha256 K pieces.flatten ∧
      ∀ salt c dkLen, PBKDF2_SHA256 hctx K salt c dkLen = pbkdf2Sha256 K salt c dkLen := by
  refine ⟨?_, ?_, fun salt c dkLen => ?_⟩
  · simpa using ((streams_init ctx).updates pieces).final
  · simpa using ((hmacStreams_init hctx K).updates pieces).final
  · exact PBKDF2_SHA256_eq hctx K salt c dkLen

/-- **Scrypt.** A key is returned exactly for parameters in order, when the memory is there, and
it is the key of scrypt over PBKDF2. -/
theorem scrypt_eq_some_iff {r p : ℕ} (hsizes : SizesFit r p) (first second : HMAC_SHA256_CTX)
    (memory : Bool) (passwd salt : Bytes) (N buflen : ℕ) (key : Bytes) :
    libscrypt_scrypt first second memory passwd salt N r p buflen = some key ↔
      memory = true ∧ Accepted N r p buflen ∧
        key = scryptSha256 passwd salt N r p buflen := by
  rw [libscrypt_scrypt, ← parametersOk_iff]
  by_cases hok : parametersOk N r p buflen = true
  · by_cases hmemory : memory = true
    · obtain ⟨⟨k, rfl⟩, hr, -, -, haddress, -⟩ := parametersOk_iff.mp hok
      have hk : k ≤ 62 := by
        by_contra hlt
        have hpow : 2 ^ 64 ≤ 2 ^ (k + 1) := Nat.pow_le_pow_right (by decide) (by omega)
        have hle : 2 ^ (k + 1) ≤ 128 * r * 2 ^ (k + 1) := Nat.le_mul_of_pos_left _ (by omega)
        omega
      have hlength : (pbkdf2Sha256 passwd salt 1 (p * (128 * r))).length = p * (128 * r) :=
        Hmac.length_pbkdf2 (by decide) length_hmacSha256 _ _ _ _ _
      have hlanes : p * 128 * r % 2 ^ 32 = p * (128 * r) := by
        rw [Nat.mod_eq_of_lt hsizes.lanes, Nat.mul_assoc]
      have hmixed : ((List.range p).flatMap fun i =>
          smix (slice (pbkdf2Sha256 passwd salt 1 (p * (128 * r))) (i * 128 * r % 2 ^ 32)
            (128 * r)) r (2 ^ (k + 1))) =
          (List.range p).flatMap fun i => Scrypt.mixed (2 ^ (k + 1)) r
            (Scrypt.block (128 * r) (pbkdf2Sha256 passwd salt 1 (p * (128 * r))) i) :=
        List.flatMap_congr fun i hi =>
          smix_slice hlength hsizes hr hk (List.mem_range.mp hi)
      simp only [hok, hmemory, PBKDF2_SHA256_eq, hlanes, hmixed]
      simp [scryptSha256, Scrypt.scrypt, eq_comm]
    · simp [hok, hmemory]
  · simp [hok]

/-- The parameters a key file asks for. -/
theorem scrypt_eq_some_iff_keyFile :
    libscrypt_scrypt ⟨.cleared, .cleared⟩ ⟨.cleared, .cleared⟩ true [0x61] [0x62] 262144 8 1 32 =
      some (scryptSha256 [0x61] [0x62] 262144 8 1 32) :=
  (scrypt_eq_some_iff ⟨by decide, by decide⟩ _ _ true [0x61] [0x62] 262144 32 _).mpr
    ⟨rfl, ⟨⟨17, rfl⟩, by decide, by decide, by decide, by decide, by decide⟩, rfl⟩

end TronWallet.Theorems
