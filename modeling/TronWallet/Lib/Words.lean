import Mathlib.Data.List.Basic

/-!
# Words as bytes

The value of a row of bytes as a word, and the bytes of a word, with the least or the most
significant byte in front.
-/

set_option autoImplicit false

namespace TronWallet.Lib.Words

variable {w : ℕ}

/-- The word of a row of bytes, the least significant one in front. -/
def ofLE (w : ℕ) (b : List UInt8) : BitVec w :=
  b.foldr (fun c x => (x <<< 8) + c.toBitVec.setWidth w) 0

/-- The first `n` bytes of a word, the least significant one in front. -/
def toLE (n : ℕ) (x : BitVec w) : List UInt8 :=
  (List.range n).map fun i => ⟨(x >>> (8 * i)).setWidth 8⟩

/-- The word of a row of bytes, the most significant one in front. -/
def ofBE (w : ℕ) (b : List UInt8) : BitVec w := ofLE w b.reverse

/-- The last `n` bytes of a word, the most significant one in front. -/
def toBE (n : ℕ) (x : BitVec w) : List UInt8 := (toLE n x).reverse

/-- The bytes of a word, the lowest first, are as many as asked for. -/
@[simp] theorem length_toLE (n : ℕ) (x : BitVec w) : (toLE n x).length = n := by
  simp [toLE]

/-- The bytes of a word, the highest first, are as many as asked for. -/
@[simp] theorem length_toBE (n : ℕ) (x : BitVec w) : (toBE n x).length = n := by
  simp [toBE]

end TronWallet.Lib.Words
