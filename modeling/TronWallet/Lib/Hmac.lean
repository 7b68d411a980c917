import TronWallet.Lib.Blocks
import Mathlib.Data.List.GetD

/-!
# HMAC and PBKDF2

`hmac` makes a function with a key of a hash function that works on blocks of a given size.
`pbkdf2` derives a key of any length from a password and a salt: each block of it is the sum
of the answers of a chain that starts with the salt and the number of the block.
-/

set_option autoImplicit false

namespace TronWallet.Lib.Hmac

section Hmac

variable (H : List UInt8 → List UInt8) (block : ℕ)

/-- The key as a block: hashed when it is too long, and filled up with zeros. -/
def blockKey (K : List UInt8) : List UInt8 :=
  let K := if block < K.length then H K else K
  K ++ List.replicate (block - K.length) 0

def hmac (K text : List UInt8) : List UInt8 :=
  H ((blockKey H block K).map (· ^^^ 0x5c) ++ H ((blockKey H block K).map (· ^^^ 0x36) ++ text))

end Hmac

section Pbkdf2

variable (prf : List UInt8 → List UInt8 → List UInt8)

/-- The chain of answers. -/
def chain (P U : List UInt8) : ℕ → List UInt8
  | 0 => U
  | j + 1 => prf P (chain P U j)

/-- The sum of `n + 1` answers of a chain. -/
def sumChain (P U : List UInt8) (n : ℕ) : List UInt8 :=
  (List.range n).foldl (fun T j => List.zipWith (· ^^^ ·) T (chain prf P U (j + 1))) U

/-- The derived key, with `number` the bytes of the number of a block and `size` the size of an
answer. -/
def pbkdf2 (size : ℕ) (number : ℕ → List UInt8) (P S : List UInt8) (c n : ℕ) : List UInt8 :=
  ((List.range ((n + size - 1) / size)).flatMap fun i =>
    sumChain prf P (prf P (S ++ number (i + 1))) (c - 1)).take n

variable {prf}

/-- Each link of the chain is one output long. -/
theorem length_chain {size : ℕ} (hprf : ∀ K text, (prf K text).length = size)
    {P U : List UInt8} (hU : U.length = size) (j : ℕ) : (chain prf P U j).length = size := by
  cases j with
  | zero => exact hU
  | succ j => exact hprf _ _

/-- The sum of a chain is one output long. -/
theorem length_sumChain {size : ℕ} (hprf : ∀ K text, (prf K text).length = size)
    {P U : List UInt8} (hU : U.length = size) (n : ℕ) : (sumChain prf P U n).length = size := by
  induction n with
  | zero => exact hU
  | succ n ih =>
    rw [sumChain] at ih ⊢
    simp [List.range_succ, ih, length_chain hprf hU]

/-- A derived key has the length asked for. -/
theorem length_pbkdf2 {size : ℕ} (hsize : 0 < size) (hprf : ∀ K text, (prf K text).length = size)
    (number : ℕ → List UInt8) (P S : List UInt8) (c n : ℕ) :
    (pbkdf2 prf size number P S c n).length = n := by
  have hblocks := Nat.div_add_mod (n + size - 1) size
  have hrest := Nat.mod_lt (n + size - 1) hsize
  rw [pbkdf2, List.length_take,
    Blocks.length_flatMap_range fun i => length_sumChain hprf (hprf _ _) _, Nat.mul_comm]
  omega

/-- A shorter key is the front of a longer one. -/
theorem pbkdf2_take {size : ℕ} (hsize : 0 < size) (hprf : ∀ K text, (prf K text).length = size)
    (number : ℕ → List UInt8) (P S : List UInt8) (c : ℕ) {n m : ℕ} (h : n ≤ m) :
    (pbkdf2 prf size number P S c m).take n = pbkdf2 prf size number P S c n := by
  obtain ⟨k, hk⟩ := Nat.exists_eq_add_of_le
    (Nat.div_le_div_right (c := size) (show n + size - 1 ≤ m + size - 1 by omega))
  have hblocks := Nat.div_add_mod (n + size - 1) size
  have hrest := Nat.mod_lt (n + size - 1) hsize
  have hlength := Blocks.length_flatMap_range
    (fun i => length_sumChain hprf (P := P) (hprf P (S ++ number (i + 1))) (c - 1))
    ((n + size - 1) / size)
  rw [Nat.mul_comm] at hlength
  rw [pbkdf2, pbkdf2, hk, List.range_add, List.flatMap_append, List.take_take, Nat.min_eq_left h,
    List.take_append_of_le_length (by omega)]

/-- Each byte of a key is one of a stream that does not depend on how long the key is. -/
theorem pbkdf2_eq_map {size : ℕ} (hsize : 0 < size)
    (hprf : ∀ K text, (prf K text).length = size) (number : ℕ → List UInt8) (P S : List UInt8)
    (c n : ℕ) :
    pbkdf2 prf size number P S c n =
      (List.range n).map fun i => (pbkdf2 prf size number P S c (i + 1)).getD i 0 := by
  have hlength := length_pbkdf2 hsize hprf number P S c
  apply List.ext_getElem
  · simp [hlength]
  · intro i hi _
    rw [hlength] at hi
    rw [List.getElem_map, List.getElem_range, ← pbkdf2_take hsize hprf number P S c hi]
    rw [List.getD_eq_getElem _ _ (by rw [List.length_take, hlength]; omega), List.getElem_take]

end Pbkdf2

/-- Blocks of one size are cut off after `n` symbols in all by cutting each where its part of
them ends. -/
theorem flatMap_take {α : Type*} {size : ℕ} {T : ℕ → List α} (hT : ∀ i, (T i).length = size)
    (blocks n : ℕ) :
    ((List.range blocks).flatMap fun i => (T i).take (n - i * size)) =
      ((List.range blocks).flatMap T).take n := by
  induction blocks with
  | zero => simp
  | succ k ih =>
    rw [List.range_succ, List.flatMap_append, List.flatMap_append, List.take_append, ih,
      Blocks.length_flatMap_range hT]
    simp

end TronWallet.Lib.Hmac
