import TronWallet.Lib.Blocks
import TronWallet.Lib.Words
import Mathlib.Data.Nat.Find
import Mathlib.Data.Nat.Prime.Defs

/-!
# SHA-256

A text is padded to whole blocks of 64 bytes, with its length in bits at the end, and the
blocks are taken into a state of eight words.  Sixteen words of a block grow into a schedule
of 64 by a recurrence; the rounds go through it with eight working variables.  The constants
are the first bits of the fractional parts of the roots of the first primes.
-/

set_option autoImplicit false

namespace TronWallet.Lib.Sha256

abbrev Word := BitVec 32

/-! ## Constants -/

/-- The first 64 primes: below 18 squared, what is not prime has a factor below 18. -/
def primes : List ℕ :=
  (List.range 312).filter fun n =>
    2 ≤ n ∧ (List.range 18).all fun m => m < 2 ∨ n ≤ m ∨ n % m ≠ 0

/-- The whole part of a root. -/
def root (k n : ℕ) : ℕ := Nat.findGreatest (fun m => m ^ k ≤ n) n

/-- The first 32 bits of the fractional part of the cube root of a prime. -/
def roundConstant (t : ℕ) : Word := BitVec.ofNat 32 (root 3 (primes.getD t 0 * 2 ^ 96))

/-- The first 32 bits of the fractional part of the square root of a prime. -/
def initialWord (j : ℕ) : Word := BitVec.ofNat 32 (root 2 (primes.getD j 0 * 2 ^ 64))

/-- The root is the number whose power is the last one not above. -/
theorem root_eq {k n m : ℕ} (hk : k ≠ 0) (hle : m ^ k ≤ n) (hlt : n < (m + 1) ^ k) :
    root k n = m := by
  apply Nat.findGreatest_eq_iff.mpr
  refine ⟨(Nat.le_self_pow hk m).trans hle, fun _ => hle, fun j hj _ hpow => ?_⟩
  have hmono : (m + 1) ^ k ≤ j ^ k := Nat.pow_le_pow_left hj k
  omega

/-! ## The compression function -/

def ch (x y z : Word) : Word := (x &&& y) ^^^ (~~~x &&& z)

def maj (x y z : Word) : Word := (x &&& y) ^^^ (x &&& z) ^^^ (y &&& z)

def bigSigma0 (x : Word) : Word := x.rotateRight 2 ^^^ x.rotateRight 13 ^^^ x.rotateRight 22

def bigSigma1 (x : Word) : Word := x.rotateRight 6 ^^^ x.rotateRight 11 ^^^ x.rotateRight 25

def smallSigma0 (x : Word) : Word := x.rotateRight 7 ^^^ x.rotateRight 18 ^^^ (x >>> 3)

def smallSigma1 (x : Word) : Word := x.rotateRight 17 ^^^ x.rotateRight 19 ^^^ (x >>> 10)

/-- The schedule that grows out of the words of a block. -/
def schedule (M : ℕ → Word) (t : ℕ) : Word :=
  if t < 16 then M t
  else smallSigma1 (schedule M (t - 2)) + schedule M (t - 7) + smallSigma0 (schedule M (t - 15)) +
    schedule M (t - 16)
termination_by t

/-- The working variables. -/
structure Vars where
  a : Word
  b : Word
  c : Word
  d : Word
  e : Word
  f : Word
  g : Word
  h : Word

/-- One round, with the word of the schedule and the constant added up. -/
def Vars.round (v : Vars) (k : Word) : Vars :=
  let t₁ := v.h + bigSigma1 v.e + ch v.e v.f v.g + k
  let t₂ := bigSigma0 v.a + maj v.a v.b v.c
  ⟨t₁ + t₂, v.a, v.b, v.c, v.d + t₁, v.e, v.f, v.g⟩

def Vars.add (v w : Vars) : Vars :=
  ⟨v.a + w.a, v.b + w.b, v.c + w.c, v.d + w.d, v.e + w.e, v.f + w.f, v.g + w.g, v.h + w.h⟩

/-- The words of a block. -/
def blockWord (block : List UInt8) (t : ℕ) : Word := Words.ofBE 32 ((block.drop (4 * t)).take 4)

/-- The working variables after `n` rounds. -/
def rounds (block : List UInt8) (n : ℕ) (v : Vars) : Vars :=
  (List.range n).foldl
    (fun v t => v.round (schedule (blockWord block) t + roundConstant t)) v

def compress (v : Vars) (block : List UInt8) : Vars := v.add (rounds block 64 v)

/-! ## The hash function -/

def initial : Vars :=
  ⟨initialWord 0, initialWord 1, initialWord 2, initialWord 3, initialWord 4, initialWord 5,
    initialWord 6, initialWord 7⟩

/-- The number of zeros the padding takes. -/
def zeros (length : ℕ) : ℕ := (119 - length % 64) % 64

/-- What is put behind a text: a one bit, zeros, and the length of the text in bits. -/
def padding (length : ℕ) : List UInt8 :=
  0x80 :: (List.replicate (zeros length) 0 ++ Words.toBE 8 (BitVec.ofNat 64 (8 * length)))

/-- The bytes of a state. -/
def Vars.toBytes (v : Vars) : List UInt8 :=
  [v.a, v.b, v.c, v.d, v.e, v.f, v.g, v.h].flatMap (Words.toBE 4)

def hash (m : List UInt8) : List UInt8 :=
  (Blocks.absorb compress 64 initial (m ++ padding m.length)).toBytes

/-- A digest has 32 bytes. -/
@[simp] theorem length_hash (m : List UInt8) : (hash m).length = 32 := by
  simp [hash, Vars.toBytes]

end TronWallet.Lib.Sha256
