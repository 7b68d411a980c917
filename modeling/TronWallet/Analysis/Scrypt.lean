import TronWallet.Lib.Scrypt
import TronWallet.Model.Scrypt
import TronWallet.Analysis.Sha256

/-!
# Scrypt as libscrypt computes it

The words of a square are changed in place, line after line: after each line the square holds
the first lines of the new one and the last of the old one (`firstColumns`, `firstRows`).
The loop over the blocks goes along the chain of `blockMix`.  In the first loop over rows the
rows on the way are kept, in the second one the row kept at a number is the one on the way
with that number, so that both are loops of `roMix`.
-/

set_option autoImplicit false

namespace TronWallet.Analysis.Scrypt

open TronWallet.Lib TronWallet.Lib.Scrypt TronWallet.Model TronWallet.Model.Libscrypt

/-! ## The Salsa20/8 core -/

/-- The macro is a rotation. -/
theorem R_eq (x : Scrypt.Word) {n : ℕ} (hn : n < 32) : R x n = x.rotateLeft n := by
  rw [R, BitVec.rotateLeft, Nat.mod_eq_of_lt hn, BitVec.rotateLeftAux]

/-- Four words of a row are changed as a quarter round says. -/
theorem quarter_eq {a b c d : ℕ} {x : List Scrypt.Word} (y : Fin 4 → Scrypt.Word)
    (hdistinct : [a, b, c, d].Nodup) (hlt : ∀ i ∈ [a, b, c, d], i < x.length)
    (ha : x.getD a 0 = y 0) (hb : x.getD b 0 = y 1) (hc : x.getD c 0 = y 2)
    (hd : x.getD d 0 = y 3) :
    quarter a b c d x =
      (((x.set b (quarterround y 1)).set c (quarterround y 2)).set d (quarterround y 3)).set a
        (quarterround y 0) := by
  simp only [List.nodup_cons, List.mem_cons, List.not_mem_nil, not_or, or_false, List.nodup_nil,
    and_true, not_false_eq_true] at hdistinct
  simp only [List.mem_cons, List.not_mem_nil, or_false, forall_eq_or_imp, forall_eq] at hlt
  obtain ⟨⟨hab, hac, had⟩, ⟨hbc, hbd⟩, hcd⟩ := hdistinct
  obtain ⟨hla, hlb, hlc, hld⟩ := hlt
  rw [List.getD_eq_getElem _ _ hla] at ha
  rw [List.getD_eq_getElem _ _ hlb] at hb
  rw [List.getD_eq_getElem _ _ hlc] at hc
  rw [List.getD_eq_getElem _ _ hld] at hd
  simp [quarter, quarterround, R_eq, hbc, hcd, Ne.symm hab, Ne.symm hac, Ne.symm had,
    Ne.symm hbc, Ne.symm hcd, hbd, hla, hlb, hlc, hld, ha, hb, hc, hd]

/-- The first columns of one square and the others of another one. -/
def firstColumns (n : ℕ) (M M' : Square) : Square := fun i j => if j.val < n then M i j else M' i j

/-- The first rows of one square and the others of another one. -/
def firstRows (n : ℕ) (M M' : Square) : Square := fun i j => if i.val < n then M i j else M' i j

/-- The four quarter rounds on the columns are a column round. -/
theorem columns_squareWords (M : Square) :
    columns (squareWords M) = squareWords (columnround M) := by
  have h₀ : quarter 0 4 8 12 (squareWords M) = squareWords (firstColumns 1 (columnround M) M) :=
    quarter_eq (fun k => M k 0) (by decide) (by simp) rfl rfl rfl rfl
  have h₁ : quarter 5 9 13 1 (squareWords (firstColumns 1 (columnround M) M)) =
      squareWords (firstColumns 2 (columnround M) M) :=
    quarter_eq (fun k => M (1 + k) 1) (by decide) (by simp) rfl rfl rfl rfl
  have h₂ : quarter 10 14 2 6 (squareWords (firstColumns 2 (columnround M) M)) =
      squareWords (firstColumns 3 (columnround M) M) :=
    quarter_eq (fun k => M (2 + k) 2) (by decide) (by simp) rfl rfl rfl rfl
  have h₃ : quarter 15 3 7 11 (squareWords (firstColumns 3 (columnround M) M)) =
      squareWords (columnround M) :=
    quarter_eq (fun k => M (3 + k) 3) (by decide) (by simp) rfl rfl rfl rfl
  rw [columns, h₀, h₁, h₂, h₃]

/-- The four quarter rounds on the rows are a row round. -/
theorem rows_squareWords (M : Square) : rows (squareWords M) = squareWords (rowround M) := by
  have h₀ : quarter 0 1 2 3 (squareWords M) = squareWords (firstRows 1 (rowround M) M) :=
    quarter_eq (fun k => M 0 k) (by decide) (by simp) rfl rfl rfl rfl
  have h₁ : quarter 5 6 7 4 (squareWords (firstRows 1 (rowround M) M)) =
      squareWords (firstRows 2 (rowround M) M) :=
    quarter_eq (fun k => M 1 (1 + k)) (by decide) (by simp) rfl rfl rfl rfl
  have h₂ : quarter 10 11 8 9 (squareWords (firstRows 2 (rowround M) M)) =
      squareWords (firstRows 3 (rowround M) M) :=
    quarter_eq (fun k => M 2 (2 + k)) (by decide) (by simp) rfl rfl rfl rfl
  have h₃ : quarter 15 12 13 14 (squareWords (firstRows 3 (rowround M) M)) =
      squareWords (rowround M) :=
    quarter_eq (fun k => M 3 (3 + k)) (by decide) (by simp) rfl rfl rfl rfl
  rw [rows, h₀, h₁, h₂, h₃]

/-- A square is made again from its words. -/
theorem square_squareWords (M : Square) : square (squareWords M) = M := by
  funext i j
  match i, j with
  | 0, 0 | 0, 1 | 0, 2 | 0, 3 | 1, 0 | 1, 1 | 1, 2 | 1, 3 => rfl
  | 2, 0 | 2, 1 | 2, 2 | 2, 3 | 3, 0 | 3, 1 | 3, 2 | 3, 3 => rfl

/-- Sixteen words are a square. -/
theorem exists_square {x : List Scrypt.Word} (hx : x.length = 16) : ∃ M, x = squareWords M := by
  refine ⟨square x, ?_⟩
  match x, hx with
  | [_, _, _, _, _, _, _, _, _, _, _, _, _, _, _, _], _ => rfl

/-- The loop is a number of double rounds, by induction on the number. -/
theorem foldl_doubleround (M : Square) (n : ℕ) :
    (List.range n).foldl (fun x _ => rows (columns x)) (squareWords M) =
      squareWords (doubleround^[n] M) := by
  induction n with
  | zero => rfl
  | succ n ih =>
    rw [List.range_succ, List.foldl_append, ih, List.foldl_cons, List.foldl_nil,
      columns_squareWords, rows_squareWords, Function.iterate_succ_apply', doubleround]

/-- The loop and the final addition are Salsa20 with eight rounds. -/
theorem salsa20_8_eq {x : List Scrypt.Word} (hx : x.length = 16) : salsa20_8 x = salsa8 x := by
  obtain ⟨M, rfl⟩ := exists_square hx
  rw [salsa20_8, foldl_doubleround, salsa8, square_squareWords]
  rfl

/-- Salsa20 gives sixteen words. -/
@[simp] theorem length_salsa8 (x : List Scrypt.Word) : (salsa8 x).length = 16 := rfl

/-! ## The mixing of blocks -/

/-- The mixing of the blocks of a row of words. -/
abbrev mixBlocks (r : ℕ) : List Scrypt.Word → List Scrypt.Word :=
  blockMix salsa8 (· ^^^ ·) 16 r

/-- Mixing keeps the number of words. -/
@[simp] theorem length_mixBlocks (r : ℕ) (B : List Scrypt.Word) :
    (mixBlocks r B).length = 32 * r := by
  rw [mixBlocks, length_blockMix _ length_salsa8]
  omega

variable {r : ℕ} {B : List Scrypt.Word}

/-- Each link of the chain has sixteen words. -/
theorem length_chain (hB : B.length = 32 * r) (hr : 0 < r) (i : ℕ) :
    (chain salsa8 (· ^^^ ·) 16 r B i).length = 16 := by
  cases i with
  | zero => exact length_block 16 (show B.length = 2 * r * 16 by omega) (by omega)
  | succ i => rfl

/-- A link of the chain. -/
theorem salsa20_8_chain (hB : B.length = 32 * r) {i : ℕ} (hi : i < 2 * r) :
    salsa20_8 (blkxor (chain salsa8 (· ^^^ ·) 16 r B i) (slice B (i * 16) 16)) =
      chain salsa8 (· ^^^ ·) 16 r B (i + 1) := by
  have hblock : (block 16 B i).length = 16 :=
    length_block 16 (show B.length = 2 * r * 16 by omega) hi
  have hlength := length_chain hB (by omega) i
  rw [salsa20_8_eq (by rw [blkxor, List.length_zipWith, hlength]; exact congrArg _ hblock)]
  rfl

/-- The loop goes along the chain and puts its links into the two halves in turn. -/
theorem foldl_chain (hB : B.length = 32 * r) {k : ℕ} (hk : k ≤ r) :
    (List.range k).foldl
      (fun (x : List Scrypt.Word × List Scrypt.Word × List Scrypt.Word) k =>
        (salsa20_8 (blkxor (salsa20_8 (blkxor x.1 (slice B (2 * k * 16) 16)))
            (slice B (2 * k * 16 + 16) 16)),
          x.2.1 ++ salsa20_8 (blkxor x.1 (slice B (2 * k * 16) 16)),
          x.2.2 ++ salsa20_8 (blkxor (salsa20_8 (blkxor x.1 (slice B (2 * k * 16) 16)))
            (slice B (2 * k * 16 + 16) 16))))
      (slice B ((2 * r - 1) * 16) 16, [], []) =
      (chain salsa8 (· ^^^ ·) 16 r B (2 * k),
        (List.range k).flatMap fun k => chain salsa8 (· ^^^ ·) 16 r B (2 * k + 1),
        (List.range k).flatMap fun k => chain salsa8 (· ^^^ ·) 16 r B (2 * k + 2)) := by
  induction k with
  | zero => rfl
  | succ k ih =>
    have hodd := salsa20_8_chain hB (show 2 * k < 2 * r by omega)
    have heven := salsa20_8_chain hB (show 2 * k + 1 < 2 * r by omega)
    rw [Nat.succ_mul (2 * k)] at heven
    rw [List.range_succ, List.foldl_append, ih (by omega), List.foldl_cons, List.foldl_nil]
    simp only [hodd, heven, List.flatMap_append, List.flatMap_cons, List.flatMap_nil,
      List.append_nil]
    rfl

/-- The loops over the even and the odd blocks are the mixing of blocks. -/
theorem blockmix_eq (hB : B.length = 32 * r) : blockmix_salsa8 B r = mixBlocks r B := by
  rw [blockmix_salsa8]
  exact congrArg (fun x => x.2.1 ++ x.2.2) (foldl_chain hB (le_refl r))

/-! ## Bytes and words -/

/-- A word is read from four bytes, the lowest first. -/
theorem le32dec_eq {p : Bytes} (hp : 4 ≤ p.length) : le32dec p = Words.ofLE 32 (p.take 4) := by
  match p, hp with
  | a :: b :: c :: d :: p, _ =>
    have hshift : ∀ x : Scrypt.Word,
        x <<< 8 = x * 256 ∧ x <<< 16 = x * (256 * 256) ∧ x <<< 24 = x * (256 * 256 * 256) := by
      intro x
      simp only [BitVec.shiftLeft_eq_mul_twoPow]
      exact ⟨rfl, rfl, rfl⟩
    simp only [le32dec, word, Words.ofLE, hshift, List.getD_cons_zero, List.getD_cons_succ,
      List.take_succ_cons, List.take_zero, List.foldr_cons, List.foldr_nil]
    ring

/-- A word is written as four bytes, the lowest first. -/
theorem le32enc_eq (x : Scrypt.Word) : le32enc x = Words.toLE 4 x := by
  have hbytes := congrArg List.reverse (Sha256.be32enc_eq x)
  rwa [Words.toBE, List.reverse_reverse] at hbytes

/-- The loop that reads the words of a block. -/
theorem wordsOf_eq {B : Bytes} (hB : B.length = 128 * r) :
    ((List.range (32 * r)).map fun k => le32dec (B.drop (4 * k))) = wordsOf B := by
  rw [wordsOf, show B.length / 4 = 32 * r by omega]
  apply List.map_congr_left
  intro k hk
  rw [List.mem_range] at hk
  exact le32dec_eq (by rw [List.length_drop]; omega)

/-- The number a row gives, cut down to `N` by its bits. -/
theorem integerify_and (hB : B.length = 32 * r) (hr : 0 < r) {k : ℕ} (hk : k ≤ 63) :
    (Libscrypt.integerify B r &&& BitVec.ofNat 64 (2 ^ k - 1)).toNat =
      Scrypt.integerify r B % 2 ^ k := by
  have hblock : (block 16 B (2 * r - 1)).length = 16 :=
    length_block 16 (show B.length = 2 * r * 16 by omega) (by omega)
  have hget : ∀ i < 16, B.getD ((2 * r - 1) * 16 + i) 0 =
      (block 16 B (2 * r - 1)).getD i 0 := by
    intro i hi
    simp [block, List.getD_eq_getElem?_getD, hi]
  have hzero := hget 0 (by decide)
  have hone := hget 1 (by decide)
  rw [Libscrypt.integerify, hone, ← Nat.add_zero ((2 * r - 1) * 16), hzero, Scrypt.integerify]
  obtain ⟨x, tail, hcons⟩ := List.exists_cons_of_length_eq_add_one hblock
  rw [hcons, List.length_cons] at hblock
  obtain ⟨y, rest, htail⟩ := List.exists_cons_of_length_eq_add_one (Nat.succ_inj.mp hblock)
  rw [hcons, htail]
  have hx := x.isLt
  have hy := y.isLt
  have hmask : (BitVec.ofNat 64 (2 ^ k - 1)).toNat = 2 ^ k - 1 := by
    have hpow : 2 ^ k ≤ 2 ^ 63 := Nat.pow_le_pow_right (by decide) hk
    rw [BitVec.toNat_ofNat, Nat.mod_eq_of_lt (by omega)]
  have hsum : (y.setWidth 64 <<< 32 + x.setWidth 64 : BitVec 64).toNat =
      x.toNat + 2 ^ 32 * y.toNat := by
    simp [BitVec.toNat_shiftLeft, Nat.shiftLeft_eq]
    omega
  obtain ⟨m, hm⟩ := Nat.pow_dvd_pow 2 (show k ≤ 64 by omega)
  simp only [List.getD_cons_zero, List.getD_cons_succ, List.foldr_cons]
  rw [BitVec.toNat_and, hmask, hsum, Nat.and_two_pow_sub_one_eq_mod, Nat.mul_add, ← Nat.mul_assoc,
    ← Nat.add_assoc, show 2 ^ 32 * 2 ^ 32 = 2 ^ k * m from hm, Nat.mul_assoc,
    Nat.add_mul_mod_self_left]

/-! ## The mixing of a row -/

/-- The way back to a row that has been kept. -/
abbrev revisitRow (r N : ℕ) (B : List Scrypt.Word) : List Scrypt.Word → List Scrypt.Word :=
  revisit (mixBlocks r) (List.zipWith (· ^^^ ·)) (Scrypt.integerify r) N B

/-- Mixing again and again keeps the number of words. -/
theorem length_iterate (hB : B.length = 32 * r) (i : ℕ) :
    ((mixBlocks r)^[i] B).length = 32 * r := by
  cases i with
  | zero => exact hB
  | succ i => rw [Function.iterate_succ_apply', length_mixBlocks]

/-- Going back to the rows keeps the number of words. -/
theorem length_iterate_revisitRow {X : List Scrypt.Word} (hX : X.length = 32 * r) (N : ℕ)
    (B : List Scrypt.Word) (i : ℕ) :
    ((revisitRow r N B)^[i] X).length = 32 * r := by
  cases i with
  | zero => exact hX
  | succ i => rw [Function.iterate_succ_apply', revisitRow, revisit, length_mixBlocks]

/-- What is kept in the first loop: the rows on the way. -/
theorem foldl_keep (hB : B.length = 32 * r) (t : ℕ) :
    (List.range t).foldl
      (fun (x : List Scrypt.Word × List Scrypt.Word) _ =>
        (x.1 ++ x.2 ++ blockmix_salsa8 x.2 r, blockmix_salsa8 (blockmix_salsa8 x.2 r) r))
      ([], B) =
      ((List.range (2 * t)).flatMap fun i => (mixBlocks r)^[i] B, (mixBlocks r)^[2 * t] B) := by
  induction t with
  | zero => rfl
  | succ t ih =>
    have hfirst := blockmix_eq (length_iterate hB (2 * t))
    rw [← Function.iterate_succ_apply' (mixBlocks r)] at hfirst
    have hsecond := blockmix_eq (length_iterate hB (2 * t + 1))
    rw [← Function.iterate_succ_apply' (mixBlocks r)] at hsecond
    rw [List.range_succ, List.foldl_append, ih, List.foldl_cons, List.foldl_nil, hfirst, hsecond,
      Nat.mul_succ, List.range_succ, List.range_succ]
    simp only [List.flatMap_append, List.flatMap_singleton]

/-- The row that is looked up in the table is the one of its number. -/
theorem kept_eq (hB : B.length = 32 * r) (hr : 0 < r) {X : List Scrypt.Word}
    (hX : X.length = 32 * r) {k : ℕ} (hk : k ≤ 63) :
    kept ((List.range (2 ^ k)).flatMap fun i => (mixBlocks r)^[i] B) r (2 ^ k) X =
      (mixBlocks r)^[Scrypt.integerify r X % 2 ^ k] B := by
  rw [kept, integerify_and hX hr hk]
  exact block_flatMap_range (32 * r) (length_iterate hB)
    (Nat.mod_lt _ (Nat.pow_pos (by decide)))

/-- One step of the second loop. -/
theorem blockmix_kept (hB : B.length = 32 * r) (hr : 0 < r) {X : List Scrypt.Word}
    (hX : X.length = 32 * r) {k : ℕ} (hk : k ≤ 63) :
    blockmix_salsa8
      (blkxor X (kept ((List.range (2 ^ k)).flatMap fun i => (mixBlocks r)^[i] B) r (2 ^ k) X)) r =
      revisitRow r (2 ^ k) B X := by
  rw [kept_eq hB hr hX hk, blkxor, blockmix_eq, revisitRow, revisit]
  rw [List.length_zipWith, hX, length_iterate hB, Nat.min_self]

/-- The second loop goes back to a row in each round, by induction on the rounds. -/
theorem foldl_revisit (hB : B.length = 32 * r) (hr : 0 < r) {X : List Scrypt.Word}
    (hX : X.length = 32 * r) {k : ℕ} (hk : k ≤ 63) (t : ℕ) :
    (List.range t).foldl
      (fun X _ =>
        let V := (List.range (2 ^ k)).flatMap fun i => (mixBlocks r)^[i] B
        let Y := blockmix_salsa8 (blkxor X (kept V r (2 ^ k) X)) r
        blockmix_salsa8 (blkxor Y (kept V r (2 ^ k) Y)) r) X =
      (revisitRow r (2 ^ k) B)^[2 * t] X := by
  induction t with
  | zero => rfl
  | succ t ih =>
    have hlength := length_iterate_revisitRow hX (2 ^ k) B
    have hfirst := blockmix_kept hB hr (hlength (2 * t)) hk
    rw [← Function.iterate_succ_apply' (revisitRow r (2 ^ k) B)] at hfirst
    have hsecond := blockmix_kept hB hr (hlength (2 * t + 1)) hk
    rw [← Function.iterate_succ_apply' (revisitRow r (2 ^ k) B)] at hsecond
    rw [List.range_succ, List.foldl_append, ih, List.foldl_cons, List.foldl_nil]
    simp only [hfirst, hsecond]
    rfl

/-- The two loops are the mixing with a power of two of rows. -/
theorem smix_eq {B : Bytes} (hB : B.length = 128 * r) (hr : 0 < r) {k : ℕ} (hk : k ≤ 62) :
    smix B r (2 ^ (k + 1)) = mixed (2 ^ (k + 1)) r B := by
  have hwords : (wordsOf B).length = 32 * r := by
    rw [wordsOf, List.length_map, List.length_range]
    omega
  have hhalf : (2 ^ (k + 1) + 1) / 2 = 2 ^ k := by
    rw [Nat.pow_succ]
    omega
  have hdouble : 2 * 2 ^ k = 2 ^ (k + 1) := by
    rw [Nat.pow_succ, Nat.mul_comm]
  have hkeep := foldl_keep hwords (2 ^ k)
  have hrevisit := foldl_revisit hwords hr (length_iterate hwords (2 ^ (k + 1)))
    (show k + 1 ≤ 63 by omega) (2 ^ k)
  rw [hdouble] at hkeep hrevisit
  have hbytes : le32enc = Words.toLE 4 := funext le32enc_eq
  rw [smix, wordsOf_eq hB, hhalf, mixed, bytesOf, roMix, ← hbytes]
  simp only [hkeep]
  exact congrArg (List.flatMap le32enc) hrevisit

end TronWallet.Analysis.Scrypt
