import TronWallet.Lib.Sponge
import TronWallet.Lib.Words
import Mathlib.Algebra.Group.Nat.Defs
import Mathlib.Data.Fin.Basic
import Mathlib.Data.List.FinRange

/-!
# The permutation Keccak-f[1600]

The state is a square of five by five lanes, with the coordinates taken modulo five.  A
round is made of five steps: `theta` adds the parities of two neighbouring columns to a
lane, `rho` turns the lanes by offsets that grow along a walk through the square, `pi`
moves them, `chi` is the only step that is not linear, and `iota` adds a constant, the
bits of which come from a shift register.
-/

set_option autoImplicit false

namespace TronWallet.Lib.KeccakF

abbrev Lane := BitVec 64

/-- The lanes by their coordinates. -/
abbrev State := Fin 5 → Fin 5 → Lane

/-! ## The steps of a round -/

/-- The parity of a column. -/
def parity (A : State) (x : Fin 5) : Lane := A x 0 ^^^ A x 1 ^^^ A x 2 ^^^ A x 3 ^^^ A x 4

def theta (A : State) : State :=
  fun x y => A x y ^^^ parity A (x - 1) ^^^ (parity A (x + 1)).rotateLeft 1

/-- The walk through all lanes but the one at the origin. -/
def walk : ℕ → Fin 5 × Fin 5
  | 0 => (1, 0)
  | t + 1 => ((walk t).2, 2 * (walk t).1 + 3 * (walk t).2)

/-- The offset of a lane: at step `t` of the walk it is the sum of the numbers up to
`t + 1`. -/
def offset (x y : Fin 5) : ℕ :=
  ((List.range 24).find? fun t => walk t = (x, y)).elim 0 fun t => (t + 1) * (t + 2) / 2

def rho (A : State) : State := fun x y => (A x y).rotateLeft (offset x y)

def pi (A : State) : State := fun x y => A (x + 3 * y) x

def chi (A : State) : State := fun x y => A x y ^^^ (~~~A (x + 1) y &&& A (x + 2) y)

/-- One step of the shift register of the polynomial `x ^ 8 + x ^ 6 + x ^ 5 + x ^ 4 + 1`. -/
def shiftRegister (r : BitVec 8) : BitVec 8 := (r <<< 1) ^^^ (if r.getLsbD 7 then 0x71 else 0)

/-- The bit the shift register gives at time `t`. -/
def rc (t : ℕ) : Bool := (shiftRegister^[t % 255] 1).getLsbD 0

/-- The constant of a round. -/
def roundConstant (i : ℕ) : Lane :=
  (List.range 7).foldl
    (fun c j => if rc (j + 7 * i) then c ||| (1 <<< (2 ^ j - 1)) else c) 0

def iota (i : ℕ) (A : State) : State :=
  fun x y => if x = 0 ∧ y = 0 then A x y ^^^ roundConstant i else A x y

def round (i : ℕ) (A : State) : State := iota i (chi (pi (rho (theta A))))

/-- Keccak-f[1600]. -/
def permutation (A : State) : State := (List.range 24).foldl (fun A i => round i A) A

/-! ## States as rows of lanes and of bytes -/

/-- The lanes of a state, row by row. -/
def rows (A : State) : List Lane :=
  (List.finRange 5).flatMap fun y => (List.finRange 5).map fun x => A x y

/-- The state in a row of bytes. -/
def ofBytes (b : List UInt8) : State :=
  fun x y => Words.ofLE 64 ((b.drop (8 * (x + 5 * y))).take 8)

/-- The bytes of a state. -/
def toBytes (A : State) : List UInt8 := (rows A).flatMap (Words.toLE 8)

/-- The permutation of two hundred bytes. -/
def onBytes (b : List UInt8) : List UInt8 := toBytes (permutation (ofBytes b))

/-- The permutation gives a whole state of 200 bytes. -/
@[simp] theorem length_onBytes (b : List UInt8) : (onBytes b).length = 200 := by
  simp [onBytes, toBytes, rows]

/-- **The sponge over the permutation**, which starts with a state of zeros. -/
def keccak (rate : ℕ) (first : UInt8) (m : List UInt8) (n : ℕ) : List UInt8 :=
  Sponge.sponge onBytes rate first 0x80 (List.replicate 200 0) m n

end TronWallet.Lib.KeccakF
