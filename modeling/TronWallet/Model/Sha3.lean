import TronWallet.Lib.Words
import TronWallet.Model.Bytes

/-!
# Keccak-256

`SHA3.cpp`: the permutation works in place on 25 lanes, with five more of its own and one
that is carried along a walk through them; the hash function takes its text in blocks of
`rate` bytes, adds the marks of the padding to the state before the last of them, and takes
what it returns out of the state in the same way.

The loops of the hash function run while a block is left.  Their rounds are counted, and a
loop that has none left does not return; every instance has a rate above zero, with which
the bytes of the text are enough rounds.
-/

set_option autoImplicit false

namespace TronWallet.Model

open TronWallet.Lib

namespace Keccak

abbrev Lane := BitVec 64

/-! ## The permutation -/

/-- SOURCE: libdevcore/SHA3.cpp:65-69 -/
def rho : List ℕ :=
  [1, 3, 6, 10, 15, 21, 28, 36, 45, 55, 2, 14, 27, 41, 56, 8, 25, 43, 62, 18, 39, 61, 20, 44]

/-- SOURCE: libdevcore/SHA3.cpp:70-74 -/
def pi : List ℕ :=
  [10, 7, 11, 17, 18, 3, 5, 16, 8, 21, 24, 4, 15, 23, 19, 13, 12, 2, 20, 14, 22, 9, 6, 1]

/-- SOURCE: libdevcore/SHA3.cpp:75-81 -/
def RC : List Lane :=
  [1, 0x8082, 0x800000000000808a, 0x8000000080008000, 0x808b, 0x80000001, 0x8000000080008081,
    0x8000000000008009, 0x8a, 0x88, 0x80008009, 0x8000000a, 0x8000808b, 0x800000000000008b,
    0x8000000000008089, 0x8000000000008003, 0x8000000000008002, 0x8000000000000080, 0x800a,
    0x800000008000000a, 0x8000000080008081, 0x8000000000008080, 0x80000001, 0x8000000080008008]

/-- SOURCE: libdevcore/SHA3.cpp:84 -/
def rol (x : Lane) (s : ℕ) : Lane := (x <<< s) ||| (x >>> (64 - s))

/-- What a macro that goes through five values of a counter does to a state.
SOURCE: libdevcore/SHA3.cpp:87-90 -/
def for5 {σ : Type} (step : ℕ) (e : ℕ → σ → σ) (s : σ) : σ :=
  [0, step, 2 * step, 3 * step, 4 * step].foldl (fun s v => e v s) s

/-- The parities of the columns. SOURCE: libdevcore/SHA3.cpp:101-104 -/
def columns (a b : List Lane) : List Lane :=
  for5 1 (fun x b => for5 5 (fun y b => b.modify x (· ^^^ a.getD (x + y) 0)) (b.set x 0)) b

/-- SOURCE: libdevcore/SHA3.cpp:105-107 -/
def addColumns (b a : List Lane) : List Lane :=
  for5 1 (fun x a => for5 5 (fun y a => a.modify (y + x)
    (· ^^^ (b.getD ((x + 4) % 5) 0 ^^^ rol (b.getD ((x + 1) % 5) 0) 1))) a) a

/-- One step of the walk: a lane takes the place of the next one, which is carried on. Of the
own lanes the first one is used for the exchange.
SOURCE: libdevcore/SHA3.cpp:111-114 -/
def carry (s : List Lane × List Lane × Lane) (x : ℕ) : List Lane × List Lane × Lane :=
  let b := s.2.1.set 0 (s.1.getD (pi.getD x 0) 0)
  (s.1.set (pi.getD x 0) (rol s.2.2 (rho.getD x 0)), b, b.getD 0 0)

/-- SOURCE: libdevcore/SHA3.cpp:109-114 -/
def rhoPi (a b : List Lane) : List Lane × List Lane × Lane :=
  (List.range 24).foldl carry (a, b, a.getD 1 0)

/-- The lanes of a row. SOURCE: libdevcore/SHA3.cpp:118-119 -/
def rowLanes (a : List Lane) (y : ℕ) (b : List Lane) : List Lane :=
  for5 1 (fun x b => b.set x (a.getD (y + x) 0)) b

/-- SOURCE: libdevcore/SHA3.cpp:120-121 -/
def chiRow (b : List Lane) (y : ℕ) (a : List Lane) : List Lane :=
  for5 1 (fun x a => a.set (y + x)
    (b.getD x 0 ^^^ (~~~b.getD ((x + 1) % 5) 0 &&& b.getD ((x + 2) % 5) 0))) a

/-- One row of the lanes of the state, by way of the five others.
SOURCE: libdevcore/SHA3.cpp:118-121 -/
def chiStep (y : ℕ) (s : List Lane × List Lane) : List Lane × List Lane :=
  let b := rowLanes s.1 y s.2
  (chiRow b y s.1, b)

/-- SOURCE: libdevcore/SHA3.cpp:116-121 -/
def chi (s : List Lane × List Lane) : List Lane × List Lane := for5 5 chiStep s

/-- One round, on the lanes of the state and the five others.
SOURCE: libdevcore/SHA3.cpp:99-124 -/
def round (s : List Lane × List Lane) (i : ℕ) : List Lane × List Lane :=
  -- Theta
  let b := columns s.1 s.2
  let a := addColumns b s.1
  -- Rho and pi
  let (a, b, _) := rhoPi a b
  -- Chi
  let (a, b) := chi (a, b)
  -- Iota
  (a.modify 0 (· ^^^ RC.getD i 0), b)

/-- The 25 lanes of a state of 200 bytes, on a machine with the least significant byte in
front. -/
def lanes (state : Bytes) : List Lane :=
  (List.range 25).map fun i => Words.ofLE 64 (cropped state (8 * i) 8)

/-- SOURCE: libdevcore/SHA3.cpp:93-125 -/
def keccakf (state : Bytes) : Bytes :=
  let s := (List.range 24).foldl round (lanes state, List.replicate 5 0)
  s.1.flatMap (Words.toLE 8)

/-! ## The hash function -/

/-- The number of bytes of a state. SOURCE: libdevcore/SHA3.cpp:151 -/
def Plen : ℕ := 200

/-- SOURCE: libdevcore/SHA3.cpp:147 -/
def xorin (dst src : Bytes) (len : ℕ) : Bytes :=
  dst.mapIdx fun i d => if i < len then d ^^^ src.getD i 0 else d

/-- How the hash function can end without a result. -/
inductive HashFailure
  /-- It returns -1. -/
  | minusOne
  /-- It does not return. -/
  | outOfRounds
deriving DecidableEq

/-- The blocks of a text are taken in, each followed by the permutation. Returned are the
state and what is left of the text. SOURCE: libdevcore/SHA3.cpp:153-159, 171 -/
def foldIn (rate : ℕ) : ℕ → Bytes → Bytes → Except HashFailure (Bytes × Bytes)
  | rounds, a, text =>
    if rate ≤ text.length then
      match rounds with
      | 0 => .error .outOfRounds
      | rounds + 1 => foldIn rate rounds (keccakf (xorin a text rate)) (text.drop rate)
    else .ok (a, text)

/-- Blocks are given out, each followed by the permutation. Returned are the state, what has
been given out and how much more is asked for. SOURCE: libdevcore/SHA3.cpp:153-159, 180 -/
def foldOut (rate : ℕ) : ℕ → Bytes → Bytes → ℕ → Except HashFailure (Bytes × Bytes × ℕ)
  | rounds, a, out, outlen =>
    if rate ≤ outlen then
      match rounds with
      | 0 => .error .outOfRounds
      | rounds + 1 => foldOut rate rounds (keccakf a) (out ++ a.take rate) (outlen - rate)
    else .ok (a, out, outlen)

/-- The sponge-based hash construction. SOURCE: libdevcore/SHA3.cpp:162-184 -/
def hash (outlen : ℕ) (input : Bytes) (rate : ℕ) (delim : UInt8) : Except HashFailure Bytes :=
  if Plen ≤ rate then .error .minusOne
  else do
    let (a, input) ← foldIn rate input.length (List.replicate Plen 0) input
    let a := a.modify input.length (· ^^^ delim)
    let a := a.modify (rate - 1) (· ^^^ 0x80)
    let a := xorin a input input.length
    let a := keccakf a
    let (a, out, outlen) ← foldOut rate outlen a [] outlen
    .ok (out ++ a.take outlen)

/-- SOURCE: libdevcore/SHA3.cpp:187-191, 201-203 -/
def shake (bits outlen : ℕ) (input : Bytes) : Except HashFailure Bytes :=
  hash outlen input (200 - bits / 4) 0x1f

/-- SOURCE: libdevcore/SHA3.cpp:192-199, 205-209 -/
def sha3 (bits outlen : ℕ) (input : Bytes) : Except HashFailure Bytes :=
  if bits / 8 < outlen then .error .minusOne
  else hash outlen input (200 - bits / 4) 0x01

end Keccak

/-- The Keccak-256 hash of a text, which is written over 32 bytes of zeros.
SOURCE: libdevcore/SHA3.cpp:213-222, libdevcore/SHA3.h:38-47 -/
def sha3 (input : Bytes) : H256 :=
  match Keccak.sha3 256 32 input with
  | .ok out => FixedHash.ofBytes out
  | .error _ => 0

end TronWallet.Model
