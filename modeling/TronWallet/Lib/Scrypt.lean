import TronWallet.Lib.Blocks
import TronWallet.Lib.Words
import Mathlib.Algebra.Group.Nat.Defs
import Mathlib.Data.Fin.VecNotation
import Mathlib.Logic.Function.Iterate

/-!
# Scrypt

The Salsa20 core works on a square of sixteen words: a double round goes over its columns and
then over its rows, and each line is turned so that it starts on the diagonal.  `blockMix`
chains such a function over the blocks of a row of words, and `roMix` makes that function
hard in memory: it keeps the states on the way to `N` and comes back to them in an order that
the states themselves give.
-/

set_option autoImplicit false

namespace TronWallet.Lib.Scrypt

/-! ## The Salsa20 core -/

abbrev Word := BitVec 32

abbrev Square := Fin 4 → Fin 4 → Word

def quarterround (y : Fin 4 → Word) : Fin 4 → Word :=
  let z₁ := y 1 ^^^ (y 0 + y 3).rotateLeft 7
  let z₂ := y 2 ^^^ (z₁ + y 0).rotateLeft 9
  let z₃ := y 3 ^^^ (z₂ + z₁).rotateLeft 13
  let z₀ := y 0 ^^^ (z₃ + z₂).rotateLeft 18
  ![z₀, z₁, z₂, z₃]

/-- Each row starts on the diagonal. -/
def rowround (M : Square) : Square :=
  fun i j => quarterround (fun k => M i (i + k)) (j - i)

def columnround (M : Square) : Square := fun i j => rowround (fun a b => M b a) j i

def doubleround (M : Square) : Square := rowround (columnround M)

def salsa (rounds : ℕ) (M : Square) : Square :=
  fun i j => M i j + doubleround^[rounds] M i j

/-- Sixteen words as a square, row by row. -/
def square (x : List Word) : Square := fun i j => x.getD (4 * i + j) 0

def squareWords (M : Square) : List Word :=
  (List.finRange 4).flatMap fun i => (List.finRange 4).map (M i)

/-- Salsa20/8 of sixteen words. -/
def salsa8 (x : List Word) : List Word := squareWords (salsa 4 (square x))

/-- A square has sixteen words. -/
@[simp] theorem length_squareWords (M : Square) : (squareWords M).length = 16 := rfl

/-! ## The mixing of blocks -/

section BlockMix

variable {α : Type*} (H : List α → List α) (add : α → α → α) (n : ℕ)

/-- Block `i` of a row. -/
def block (B : List α) (i : ℕ) : List α := (B.drop (i * n)).take n

/-- The chain that starts with the last of `2 * r` blocks. -/
def chain (r : ℕ) (B : List α) : ℕ → List α
  | 0 => block n B (2 * r - 1)
  | i + 1 => H (List.zipWith add (chain r B i) (block n B i))

/-- Every other link of the chain, and then those between. -/
def blockMix (r : ℕ) (B : List α) : List α :=
  ((List.range r).flatMap fun k => chain H add n r B (2 * k + 1)) ++
    (List.range r).flatMap fun k => chain H add n r B (2 * k + 2)

/-- A block within the text is a whole one. -/
theorem length_block {B : List α} {blocks i : ℕ} (hB : B.length = blocks * n)
    (hi : i < blocks) : (block n B i).length = n := by
  have hle : (i + 1) * n ≤ blocks * n := Nat.mul_le_mul_right n hi
  rw [Nat.succ_mul] at hle
  rw [block, List.length_take, List.length_drop]
  omega

/-- The blocks of a row that has been put together of them. -/
theorem block_flatMap_range {f : ℕ → List α} (hf : ∀ i, (f i).length = n) {k i : ℕ}
    (hi : i < k) : block n ((List.range k).flatMap f) i = f i := by
  induction k with
  | zero => omega
  | succ k ih =>
    have hlength := Blocks.length_flatMap_range hf k
    rw [List.range_succ, List.flatMap_append, List.flatMap_singleton, block]
    rcases Nat.lt_or_eq_of_le (Nat.le_of_lt_succ hi) with hlt | rfl
    · have hle : (i + 1) * n ≤ k * n := Nat.mul_le_mul_right n hlt
      rw [Nat.succ_mul] at hle
      rw [List.drop_append_of_le_length (by omega), List.take_append_of_le_length
        (by rw [List.length_drop]; omega)]
      exact ih hlt
    · rw [List.drop_left' hlength, List.take_of_length_le (by rw [hf])]

variable {H n}

/-- Mixing gives as many blocks as there were. -/
theorem length_blockMix (hH : ∀ x, (H x).length = n) (r : ℕ) (B : List α) :
    (blockMix H add n r B).length = 2 * r * n := by
  have hchain : ∀ i, (chain H add n r B (i + 1)).length = n := fun i => hH _
  rw [blockMix, List.length_append, Blocks.length_flatMap_range fun k => hchain (2 * k),
    Blocks.length_flatMap_range fun k => hchain (2 * k + 1)]
  rw [Nat.mul_assoc, Nat.two_mul]

end BlockMix

/-! ## Going back to what has been kept -/

section RoMix

variable {γ : Type*} (mix : γ → γ) (add : γ → γ → γ) (integerify : γ → ℕ)

/-- One way back to a state on the way from `B`. -/
def revisit (N : ℕ) (B X : γ) : γ := mix (add X (mix^[integerify X % N] B))

def roMix (N : ℕ) (B : γ) : γ := (revisit mix add integerify N B)^[N] (mix^[N] B)

end RoMix

/-! ## Scrypt -/

def wordsOf (B : List UInt8) : List Word :=
  (List.range (B.length / 4)).map fun k => Words.ofLE 32 ((B.drop (4 * k)).take 4)

def bytesOf (X : List Word) : List UInt8 := X.flatMap (Words.toLE 4)

/-- The last of `2 * r` blocks as a number, its least significant word in front. -/
def integerify (r : ℕ) (X : List Word) : ℕ :=
  (block 16 X (2 * r - 1)).foldr (fun x m => x.toNat + 2 ^ 32 * m) 0

/-- One of the blocks that are mixed on their own. -/
def mixed (N r : ℕ) (B : List UInt8) : List UInt8 :=
  bytesOf (roMix (blockMix salsa8 (· ^^^ ·) 16 r) (List.zipWith (· ^^^ ·)) (integerify r) N
    (wordsOf B))

/-- Scrypt over a function that derives keys of any length from a password and a salt. -/
def scrypt (kdf : List UInt8 → List UInt8 → ℕ → List UInt8) (P S : List UInt8)
    (N r p n : ℕ) : List UInt8 :=
  kdf P ((List.range p).flatMap fun i =>
    mixed N r (block (128 * r) (kdf P S (p * (128 * r))) i)) n

end TronWallet.Lib.Scrypt
