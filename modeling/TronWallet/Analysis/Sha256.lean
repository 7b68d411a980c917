import TronWallet.Lib.Sha256
import TronWallet.Model.Sha256
import Mathlib.Data.BitVec
import Mathlib.Data.List.GetD
import Mathlib.Tactic.IntervalCases
import Mathlib.Tactic.Ring

/-!
# SHA-256 as libscrypt computes it

The transformation of a block is the compression function: the working variables are found
where the round looks for them (`varsAt`), so that a round that writes two of them in place
is one that moves all eight.  A context that has taken in a text, in whatever pieces, holds
what `Streams` says of the whole text, and the digest is the hash of it.
-/

set_option autoImplicit false

namespace TronWallet.Analysis.Sha256

open TronWallet.Lib TronWallet.Lib.Sha256 TronWallet.Model TronWallet.Model.Libscrypt

/-! ## Words -/

/-- The macro is a rotation. -/
theorem ROTR_eq (x : Sha256.Word) {n : ℕ} (hn : n < 32) : ROTR x n = x.rotateRight n := by
  rw [ROTR, BitVec.rotateRight, Nat.mod_eq_of_lt hn, BitVec.rotateRightAux]

/-- The macro is the choice function. -/
theorem Ch_eq (x y z : Sha256.Word) : Ch x y z = ch x y z := by
  ext i hi
  simp only [Ch, ch, BitVec.getElem_xor, BitVec.getElem_and, BitVec.getElem_not]
  cases x[i] <;> cases y[i] <;> cases z[i] <;> rfl

/-- The macro is the majority function. -/
theorem Maj_eq (x y z : Sha256.Word) : Maj x y z = maj x y z := by
  ext i hi
  simp only [Maj, maj, BitVec.getElem_xor, BitVec.getElem_and, BitVec.getElem_or]
  cases x[i] <;> cases y[i] <;> cases z[i] <;> rfl

/-- The macro is the first of the large functions. -/
theorem S0_eq (x : Sha256.Word) : S0 x = bigSigma0 x := by
  simp [S0, bigSigma0, ROTR_eq]

/-- The macro is the second of the large functions. -/
theorem S1_eq (x : Sha256.Word) : S1 x = bigSigma1 x := by
  simp [S1, bigSigma1, ROTR_eq]

/-- The macro is the first of the small functions. -/
theorem s0_eq (x : Sha256.Word) : s0 x = smallSigma0 x := by
  simp [s0, smallSigma0, ROTR_eq, SHR]

/-- The macro is the second of the small functions. -/
theorem s1_eq (x : Sha256.Word) : s1 x = smallSigma1 x := by
  simp [s1, smallSigma1, ROTR_eq, SHR]

/-- A word is written as four bytes, the highest first. -/
theorem be32enc_eq (x : Sha256.Word) : be32enc x = Words.toBE 4 x := by
  have hlow : ∀ y : Sha256.Word, (y &&& 0xff).setWidth 8 = y.setWidth 8 := by
    intro y
    apply BitVec.eq_of_toNat_eq
    have hmask : (0xff : Sha256.Word).toNat = 2 ^ 8 - 1 := rfl
    simp only [BitVec.toNat_setWidth, BitVec.toNat_and]
    rw [hmask, Nat.and_two_pow_sub_one_eq_mod, Nat.mod_mod]
  simp only [be32enc, hlow]
  rfl

/-- A word is read from four bytes, the highest first. -/
theorem be32dec_eq {p : Bytes} (hp : 4 ≤ p.length) : be32dec p = Words.ofBE 32 (p.take 4) := by
  match p, hp with
  | a :: b :: c :: d :: p, _ =>
    have hshift : ∀ x : Sha256.Word,
        x <<< 8 = x * 256 ∧ x <<< 16 = x * (256 * 256) ∧ x <<< 24 = x * (256 * 256 * 256) := by
      intro x
      simp only [BitVec.shiftLeft_eq_mul_twoPow]
      exact ⟨rfl, rfl, rfl⟩
    simp only [be32dec, word, Words.ofBE, Words.ofLE, hshift, List.getD_cons_zero,
      List.getD_cons_succ, List.take_succ_cons, List.take_zero, List.reverse_cons,
      List.reverse_nil, List.nil_append, List.cons_append, List.foldr_cons, List.foldr_nil]
    ring

/-! ## Constants -/

/-- The table of constants holds the roots that are computed. -/
theorem roundConstants_getD {t : ℕ} (ht : t < 64) :
    roundConstants.getD t 0 = roundConstant t := by
  have hroot : ∀ t < 64, ∃ q < 8,
      (q * 2 ^ 32 + (roundConstants.getD t 0).toNat) ^ 3 ≤ primes.getD t 0 * 2 ^ 96 ∧
      primes.getD t 0 * 2 ^ 96 < (q * 2 ^ 32 + (roundConstants.getD t 0).toNat + 1) ^ 3 := by
    decide +kernel
  obtain ⟨q, -, hle, hlt⟩ := hroot t ht
  rw [roundConstant, root_eq (by decide) hle hlt]
  apply BitVec.eq_of_toNat_eq
  have hsmall := (roundConstants.getD t 0).isLt
  simp only [BitVec.toNat_ofNat]
  omega

/-! ## The schedule -/

/-- The loop that reads the words of a block. -/
theorem be32dec_vect_getD {block : Bytes} (hblock : block.length = 64) {t : ℕ} (ht : t < 16) :
    (be32dec_vect block 64).getD t 0 = blockWord block t := by
  have hword : be32dec (block.drop (t * 4)) = blockWord block t := by
    rw [be32dec_eq (by simp; omega), blockWord, Nat.mul_comm]
  simp [be32dec_vect, ht, hword]

/-- The first sixteen words of the schedule are those of the block. -/
theorem schedule_of_lt (M : ℕ → Sha256.Word) {t : ℕ} (ht : t < 16) : schedule M t = M t := by
  rw [schedule, if_pos ht]

/-- The other words of the schedule follow from earlier ones. -/
theorem schedule_of_le (M : ℕ → Sha256.Word) {t : ℕ} (ht : 16 ≤ t) :
    schedule M t = smallSigma1 (schedule M (t - 2)) + schedule M (t - 7) +
      smallSigma0 (schedule M (t - 15)) + schedule M (t - 16) := by
  rw [schedule, if_neg (by omega)]

/-- The words written so far are those of the schedule. -/
theorem foldl_schedule {block : Bytes} (hblock : block.length = 64) (n : ℕ) :
    let W := (List.range' 16 n).foldl
      (fun W i => W ++ [s1 (W.getD (i - 2) 0) + W.getD (i - 7) 0 + s0 (W.getD (i - 15) 0) +
        W.getD (i - 16) 0]) (be32dec_vect block 64)
    W.length = 16 + n ∧ ∀ t < 16 + n, W.getD t 0 = schedule (blockWord block) t := by
  induction n with
  | zero =>
    refine ⟨by simp [be32dec_vect], fun t ht => ?_⟩
    rw [schedule_of_lt _ ht]
    exact be32dec_vect_getD hblock ht
  | succ n ih =>
    obtain ⟨hlength, hwords⟩ := ih
    rw [List.range'_concat, List.foldl_append]
    generalize (List.range' 16 n).foldl _ (be32dec_vect block 64) = W at hlength hwords ⊢
    simp only [List.foldl_cons, List.foldl_nil, Nat.one_mul]
    refine ⟨by simp [hlength, Nat.add_assoc], fun t ht => ?_⟩
    rcases Nat.lt_succ_iff_lt_or_eq.mp (show t < (16 + n).succ from ht) with hlt | rfl
    · rw [List.getD_append _ _ _ _ (by omega)]
      exact hwords t hlt
    · rw [List.getD_append_right _ _ _ _ (by omega), hlength, Nat.sub_self, List.getD_cons_zero,
        hwords _ (by omega), hwords _ (by omega), hwords _ (by omega), hwords _ (by omega),
        s0_eq, s1_eq, schedule_of_le _ (show 16 ≤ 16 + n by omega)]

/-- The loop computes the schedule. -/
theorem messageSchedule_getD {block : Bytes} (hblock : block.length = 64) {t : ℕ} (ht : t < 64) :
    (messageSchedule block).getD t 0 = schedule (blockWord block) t :=
  (foldl_schedule hblock 48).2 t (by omega)

/-! ## The rounds -/

/-- The words of a state. -/
def toList (v : Vars) : List Sha256.Word := [v.a, v.b, v.c, v.d, v.e, v.f, v.g, v.h]

/-- The working variables where round `i` finds them. -/
def varsAt (S : List Sha256.Word) (i : ℕ) : Vars where
  a := S.getD ((64 - i) % 8) 0
  b := S.getD ((65 - i) % 8) 0
  c := S.getD ((66 - i) % 8) 0
  d := S.getD ((67 - i) % 8) 0
  e := S.getD ((68 - i) % 8) 0
  f := S.getD ((69 - i) % 8) 0
  g := S.getD ((70 - i) % 8) 0
  h := S.getD ((71 - i) % 8) 0

/-- A round keeps the number of words. -/
theorem length_RNDr (S : List Sha256.Word) (i : ℕ) (k : Sha256.Word) :
    (RNDr S i k).length = S.length := by
  simp [RNDr]

/-- **Two variables are written and all eight move**: the next round finds each where this one
found the one before it. -/
theorem varsAt_RNDr {S : List Sha256.Word} (hS : S.length = 8) {i : ℕ} (hi : i < 64)
    (k : Sha256.Word) : varsAt (RNDr S i k) (i + 1) = (varsAt S i).round k := by
  match S, hS with
  | [a, b, c, d, e, f, g, h], _ =>
    simp only [RNDr, S0_eq, S1_eq, Ch_eq, Maj_eq]
    interval_cases i <;> rfl

/-- The rounds on the rotating words are the rounds on the variables, by induction on the
rounds. -/
theorem foldl_RNDr {block : Bytes} (hblock : block.length = 64) (v : Vars) {n : ℕ} (hn : n ≤ 64) :
    let S := (List.range n).foldl (fun S i => RNDr S i
      ((messageSchedule block).getD i 0 + roundConstants.getD i 0)) (toList v)
    S.length = 8 ∧ varsAt S n = rounds block n v := by
  induction n with
  | zero => exact ⟨rfl, rfl⟩
  | succ n ih =>
    obtain ⟨hlength, hvars⟩ := ih (by omega)
    simp only [List.range_succ, List.foldl_append, List.foldl_cons, List.foldl_nil, rounds]
    simp only [rounds] at hvars
    rw [length_RNDr, varsAt_RNDr hlength (by omega), hvars,
      messageSchedule_getD hblock (by omega), roundConstants_getD (by omega)]
    exact ⟨hlength, rfl⟩

/-- After 64 rounds the variables are back where they have started. -/
theorem toList_varsAt {S : List Sha256.Word} (hS : S.length = 8) : S = toList (varsAt S 64) := by
  match S, hS with
  | [a, b, c, d, e, f, g, h], _ => rfl

/-- **The transformation is the compression function.** -/
theorem transform_eq {block : Bytes} (hblock : block.length = 64) (v : Vars) :
    SHA256_Transform (toList v) block = toList (compress v block) := by
  obtain ⟨hlength, hvars⟩ := foldl_RNDr hblock v (le_refl 64)
  have hS := toList_varsAt hlength
  rw [hvars] at hS
  rw [SHA256_Transform]
  simp only [hS]
  rfl

/-- The loop over whole blocks absorbs them and leaves the rest. -/
theorem transformBlocks_eq {rounds : ℕ} {src : Bytes} (hrounds : src.length ≤ rounds) (v : Vars) :
    transformBlocks rounds (toList v) src =
      (toList (Blocks.absorb compress 64 v src), Blocks.rest 64 src) := by
  induction rounds generalizing v src with
  | zero =>
    have hshort : src.length < 64 := by omega
    simp [transformBlocks, hshort]
  | succ rounds ih =>
    rw [transformBlocks]
    by_cases hle : 64 ≤ src.length
    · have hblock : (src.take 64).length = 64 := by simpa using hle
      have hsplit := List.take_append_drop 64 src
      rw [if_pos hle, transform_eq hblock, ih (by simp; omega)]
      conv_rhs => rw [← hsplit]
      rw [Blocks.absorb_block _ (by decide) hblock, Blocks.rest_append (by decide) hblock]
    · simp [if_neg hle, Nat.lt_of_not_le hle]

/-! ## Contexts -/

/-- A context has taken in a text. -/
structure Streams (ctx : SHA256_CTX) (m : Bytes) : Prop where
  state : ctx.state = toList (Blocks.absorb compress 64 initial m)
  count : ctx.count0.toNat * 2 ^ 32 + ctx.count1.toNat = 8 * m.length % 2 ^ 64
  buf : ctx.buf.take (m.length % 64) = Blocks.rest 64 m

/-- A new context has the initial hash value. -/
theorem state_init (ctx : SHA256_CTX) : (SHA256_Init ctx).state = toList initial := by
  have hroot : ∀ j < 8, ∃ q < 8,
      (q * 2 ^ 32 + ((SHA256_Init .cleared).state.getD j 0).toNat) ^ 2 ≤
        primes.getD j 0 * 2 ^ 64 ∧
      primes.getD j 0 * 2 ^ 64 <
        (q * 2 ^ 32 + ((SHA256_Init .cleared).state.getD j 0).toNat + 1) ^ 2 := by
    decide
  have hword : ∀ j < 8, initialWord j = (SHA256_Init .cleared).state.getD j 0 := by
    intro j hj
    obtain ⟨q, -, hle, hlt⟩ := hroot j hj
    have hsmall := ((SHA256_Init .cleared).state.getD j 0).isLt
    rw [initialWord, root_eq (by decide) hle hlt]
    apply BitVec.eq_of_toNat_eq
    simp only [BitVec.toNat_ofNat]
    omega
  rw [initial, hword 0 (by decide), hword 1 (by decide), hword 2 (by decide), hword 3 (by decide),
    hword 4 (by decide), hword 5 (by decide), hword 6 (by decide), hword 7 (by decide)]
  rfl

/-- A new context is one that has read nothing. -/
theorem streams_init (ctx : SHA256_CTX) : Streams (SHA256_Init ctx) [] where
  state := by
    rw [Blocks.absorb_of_lt _ (by decide)]
    exact state_init ctx
  count := by simp [SHA256_Init]
  buf := by simp

variable {ctx : SHA256_CTX} {m : Bytes}

/-- The count tells how many bytes are in the buffer. -/
theorem Streams.left_eq (h : Streams ctx m) : ctx.left = m.length % 64 := by
  have hcount := h.count
  have hlt := ctx.count1.isLt
  have hmask : (0x3f : Libscrypt.Word).toNat = 2 ^ 6 - 1 := rfl
  rw [SHA256_CTX.left, BitVec.toNat_and, hmask, Nat.and_two_pow_sub_one_eq_mod,
    BitVec.toNat_ushiftRight, Nat.shiftRight_eq_div_pow]
  omega

/-- A number of two words, taken to their size. -/
theorem upper_mod {x s : ℕ} (hs : s < 4294967296) :
    (x * 4294967296 + s) % 18446744073709551616 = x % 4294967296 * 4294967296 + s := by
  omega

/-- The number of bits in two words, with the carry from the lower one. -/
theorem add_carry {c₀ c₁ l n b s : ℕ} (h₁ : c₁ < 4294967296)
    (hcount : c₀ * 4294967296 + c₁ = 8 * l % 18446744073709551616)
    (hb : b = n % 4294967296 * 8 % 4294967296) (hs : s = (c₁ + b) % 4294967296) :
    ((if s < b then (c₀ + 1) % 4294967296 else c₀) + n / 536870912 % 4294967296) % 4294967296 *
        4294967296 + s =
      8 * (l + n) % 18446744073709551616 := by
  have hb' : b < 4294967296 := by omega
  have hn : 8 * n = n / 536870912 * 4294967296 + b := by omega
  obtain ⟨k, hk⟩ : ∃ k, 8 * l = k * 18446744073709551616 + (c₀ * 4294967296 + c₁) :=
    ⟨8 * l / 18446744073709551616, by omega⟩
  have hs' : s < 4294967296 := by omega
  split_ifs with h
  · have hwrap : s + 4294967296 = c₁ + b := by omega
    rw [← Nat.add_mod, ← upper_mod hs', Nat.mul_add, hk, hn]
    generalize n / 536870912 = q
    clear hs hb hn hk hcount
    omega
  · have hwrap : s = c₁ + b := by omega
    rw [Nat.add_mod_mod, ← upper_mod hs', Nat.mul_add, hk, hn]
    generalize n / 536870912 = q
    clear hs hb hn hk hcount
    omega

/-- The two words of the count are one count of bits, with its carry. -/
theorem Streams.count_counted (h : Streams ctx m) (n : ℕ) :
    (ctx.counted n).count0.toNat * 2 ^ 32 + (ctx.counted n).count1.toNat =
      8 * (m.length + n) % 2 ^ 64 := by
  have hb : (BitVec.ofNat 32 n <<< 3).toNat = n % 4294967296 * 8 % 4294967296 := by
    simp [BitVec.toNat_shiftLeft, Nat.shiftLeft_eq]
  have hsum := add_carry ctx.count1.isLt h.count hb rfl
  have hupper : (BitVec.ofNat 32 (n >>> 29)).toNat = n / 536870912 % 4294967296 := by
    simp [Nat.shiftRight_eq_div_pow]
  simp only [SHA256_CTX.counted, BitVec.lt_def, apply_ite BitVec.toNat, BitVec.toNat_add, hupper]
  exact hsum

/-- Bytes copied to a place stand there, behind what has been in front of it. -/
theorem take_memcpy (dest src : Bytes) (start : ℕ) (h : start + src.length ≤ dest.length) :
    (memcpy dest start src).take (start + src.length) = dest.take start ++ src := by
  apply List.ext_getElem
  · simp
    omega
  · intro i hi hi'
    simp only [List.length_take, length_memcpy] at hi
    simp only [memcpy, List.getElem_take, List.getElem_mapIdx]
    rcases Nat.lt_or_ge i start with hlt | hge
    · rw [if_neg (by omega), List.getElem_append_left (by simp; omega), List.getElem_take]
    · rw [if_pos (by omega), List.getElem_append_right (by simp; omega),
        List.getD_eq_getElem _ _ (by omega)]
      congr 1
      simp
      omega

/-! ## Update -/

/-- In the buffer there is as much as the rest of the text. -/
theorem Streams.left_eq_length_rest (h : Streams ctx m) :
    ctx.left = (Blocks.rest 64 m).length := by
  rw [h.left_eq, Blocks.length_rest]

/-- In the buffer there is the rest of the text. -/
theorem Streams.take_left (h : Streams ctx m) : ctx.buf.take ctx.left = Blocks.rest 64 m := by
  rw [h.left_eq, h.buf]

/-- The text stays in the buffer. -/
theorem Streams.update_short (h : Streams ctx m) {src : Bytes}
    (hlt : src.length < 64 - ctx.left) : Streams (SHA256_Update ctx src) (m ++ src) := by
  have hleft := h.left_eq
  have hshort : (Blocks.rest 64 m ++ src).length < 64 := by
    rw [List.length_append, ← h.left_eq_length_rest]
    omega
  have hlength : (m ++ src).length % 64 = ctx.left + src.length := by
    rw [List.length_append]
    omega
  have htake := take_memcpy ctx.buf src ctx.left (by rw [ctx.buf_length]; omega)
  rw [h.take_left] at htake
  rw [SHA256_Update, if_pos hlt]
  refine ⟨?_, ?_, ?_⟩
  · rw [Blocks.absorb_append _ (by decide), Blocks.absorb_of_lt _ hshort]
    exact h.state
  · simpa using h.count_counted src.length
  · rw [hlength, Blocks.rest_append_rest (by decide), Blocks.rest_of_lt hshort]
    exact htake

/-- The buffer filled up is a block: the rest of the text before and the front of the new one. -/
theorem Streams.buf_filled (h : Streams ctx m) {src : Bytes} (hle : 64 - ctx.left ≤ src.length) :
    memcpy ctx.buf ctx.left (src.take (64 - ctx.left)) =
      Blocks.rest 64 m ++ src.take (64 - ctx.left) := by
  have hleft := h.left_eq
  have hhead : (src.take (64 - ctx.left)).length = 64 - ctx.left := by
    rw [List.length_take]
    omega
  have hall : (memcpy ctx.buf ctx.left (src.take (64 - ctx.left))).length ≤
      ctx.left + (src.take (64 - ctx.left)).length := by
    rw [length_memcpy, ctx.buf_length, hhead]
    omega
  have htake := take_memcpy ctx.buf (src.take (64 - ctx.left)) ctx.left
    (by rw [ctx.buf_length, hhead]; omega)
  rwa [List.take_of_length_le hall, h.take_left] at htake

/-- What an update that fills the buffer leaves in a context. -/
theorem update_of_le {src : Bytes} (hle : 64 - ctx.left ≤ src.length) :
    (SHA256_Update ctx src).count0 = (ctx.counted src.length).count0 ∧
      (SHA256_Update ctx src).count1 = (ctx.counted src.length).count1 ∧
      ((SHA256_Update ctx src).state, (SHA256_Update ctx src).buf) =
        let buf := memcpy ctx.buf ctx.left (src.take (64 - ctx.left))
        let left := transformBlocks (src.drop (64 - ctx.left)).length
          (SHA256_Transform ctx.state buf) (src.drop (64 - ctx.left))
        (left.1, memcpy buf 0 left.2) := by
  rw [SHA256_Update, if_neg (by omega)]
  exact ⟨rfl, rfl, rfl⟩

/-- The buffer is filled, and the rest of the text goes on behind it. -/
theorem Streams.update_full (h : Streams ctx m) {src : Bytes}
    (hle : 64 - ctx.left ≤ src.length) : Streams (SHA256_Update ctx src) (m ++ src) := by
  obtain ⟨hcount0, hcount1, hleft⟩ := update_of_le hle
  have hblock : (Blocks.rest 64 m ++ src.take (64 - ctx.left)).length = 64 := by
    have hlt := Blocks.length_rest_lt (show 0 < 64 by decide) m
    rw [List.length_append, ← h.left_eq_length_rest, List.length_take]
    rw [← h.left_eq_length_rest] at hlt
    omega
  have hsplit : Blocks.rest 64 m ++ src =
      (Blocks.rest 64 m ++ src.take (64 - ctx.left)) ++ src.drop (64 - ctx.left) := by
    rw [List.append_assoc, List.take_append_drop]
  have hrest : Blocks.rest 64 (m ++ src) = Blocks.rest 64 (src.drop (64 - ctx.left)) := by
    rw [Blocks.rest_append_rest (by decide), hsplit, Blocks.rest_append (by decide) hblock]
  have habsorb : Blocks.absorb compress 64 initial (m ++ src) =
      Blocks.absorb compress 64 (compress (Blocks.absorb compress 64 initial m)
        (Blocks.rest 64 m ++ src.take (64 - ctx.left))) (src.drop (64 - ctx.left)) := by
    rw [Blocks.absorb_append _ (by decide), hsplit, Blocks.absorb_block _ (by decide) hblock]
  simp only [h.buf_filled hle, h.state, transform_eq hblock, transformBlocks_eq (le_refl _),
    ← habsorb, ← hrest, Prod.mk.injEq] at hleft
  refine ⟨hleft.1, ?_, ?_⟩
  · rw [hcount0, hcount1]
    simpa using h.count_counted src.length
  · have hsmall := Nat.mod_lt (m ++ src).length (show 0 < 64 by decide)
    have htake := take_memcpy (Blocks.rest 64 m ++ src.take (64 - ctx.left))
      (Blocks.rest 64 (m ++ src)) 0 (by rw [hblock, Blocks.length_rest]; omega)
    rw [Nat.zero_add, List.take_zero, List.nil_append, Blocks.length_rest] at htake
    rw [hleft.2, htake]

/-- **An update takes in the text behind the one taken in before.** -/
theorem Streams.update (h : Streams ctx m) (src : Bytes) :
    Streams (SHA256_Update ctx src) (m ++ src) := by
  rcases Nat.lt_or_ge src.length (64 - ctx.left) with hlt | hle
  · exact h.update_short hlt
  · exact h.update_full hle

/-! ## The digest -/

/-- The number of bits is written as one word of eight bytes. -/
theorem be32enc_vect_count {hi lo : Libscrypt.Word} {x : ℕ}
    (h : hi.toNat * 2 ^ 32 + lo.toNat = x % 2 ^ 64) :
    be32enc_vect [hi, lo] = Words.toBE 8 (BitVec.ofNat 64 x) := by
  have hlo := lo.isLt
  have hbytes : be32enc_vect [hi, lo] = Words.toBE 4 hi ++ Words.toBE 4 lo := by
    simp [be32enc_vect, be32enc_eq]
  rw [hbytes]
  simp only [Words.toBE, Words.toLE, List.range_succ, List.range_zero, List.nil_append,
    List.cons_append, List.map_cons, List.map_nil, List.reverse_cons, List.reverse_nil,
    List.cons.injEq, UInt8.ofBitVec.injEq, and_true]
  refine ⟨?_, ?_, ?_, ?_, ?_, ?_, ?_, ?_⟩ <;>
    apply BitVec.eq_of_toNat_eq <;>
    simp only [BitVec.toNat_setWidth, BitVec.toNat_ushiftRight, BitVec.toNat_ofNat, ← h,
      Nat.shiftRight_eq_div_pow] <;>
    omega

/-- The padding is a single bit and zeros behind it. -/
theorem take_PAD {k : ℕ} (hk : k < 64) : PAD.take (k + 1) = 0x80 :: List.replicate k 0 := by
  rw [PAD, List.take_succ_cons, List.take_replicate, Nat.min_eq_left (by omega)]

/-- The padding is taken in behind the text. -/
theorem Streams.pad (h : Streams ctx m) :
    Streams (SHA256_Pad ctx) (m ++ padding m.length) := by
  have hplen : (if ctx.left < 56 then 56 - ctx.left else 120 - ctx.left) =
      zeros m.length + 1 := by
    rw [h.left_eq, zeros]
    split_ifs <;> omega
  have hzeros : zeros m.length < 64 := Nat.mod_lt _ (by decide)
  have hpad := (h.update (PAD.take (zeros m.length + 1))).update
    (be32enc_vect [ctx.count0, ctx.count1])
  rw [List.append_assoc, take_PAD hzeros, be32enc_vect_count h.count, List.cons_append] at hpad
  rw [SHA256_Pad, hplen, take_PAD hzeros, be32enc_vect_count h.count, padding]
  exact hpad

/-- The digest is written word by word. -/
theorem be32enc_vect_toList (v : Vars) : be32enc_vect (toList v) = v.toBytes := by
  simp [be32enc_vect, toList, Vars.toBytes, be32enc_eq]

/-- **The digest of a context is the hash of the text it has taken in.** -/
theorem Streams.final (h : Streams ctx m) : (SHA256_Final ctx).1 = Sha256.hash m := by
  rw [SHA256_Final, h.pad.state, be32enc_vect_toList, Sha256.hash]

/-- Updates one after the other take in the pieces of a text. -/
theorem Streams.updates (h : Streams ctx m) (pieces : List Bytes) :
    Streams (pieces.foldl SHA256_Update ctx) (m ++ pieces.flatten) := by
  induction pieces generalizing ctx m with
  | nil => simpa using h
  | cons piece pieces ih =>
    have hnext := ih (h.update piece)
    rw [List.append_assoc] at hnext
    simpa using hnext

end TronWallet.Analysis.Sha256
