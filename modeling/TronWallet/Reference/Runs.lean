import TronWallet.Reference.Platform

/-!
# Actions on given inputs

Short names for the actions of runs that are evaluated: the draws of an action follow from
one small number, tables are visited in the order they are held, and secrets are such that
`MakeKey` takes the first one.
-/

set_option autoImplicit false

namespace TronWallet.Reference

open TronWallet.Lib TronWallet.Model

/-- A hash whose bytes are all the same. -/
def repeated (N n : ℕ) : FixedHash N := FixedHash.ofBytesLeft (List.replicate N (UInt8.ofNat n))

/-- A small secret. -/
def smallSecret (n : ℕ) : Secret := FixedHash.ofBytesRight [UInt8.ofNat n]

/-- Creating an account whose secret, identifier, salts and vectors follow from `n`. -/
def create (name password : Bytes) (n : ℕ) : Action :=
  .createAccount Order.held name password
    ⟨smallSecret n, 0, repeated 16 n, repeated 32 n, repeated 16 (n + 100), repeated 32 (n + 50),
      repeated 32 (n + 150)⟩

/-- Logging in with a password. -/
def enter (password : Bytes) : Action := .login Order.held password

/-- Logging out. -/
def leave : Action := .logout Order.held

/-- Generating an address from a small secret. -/
def generate (n : ℕ) : Action := .generateAddress Order.held ⟨smallSecret n, 0, repeated 16 n⟩

/-- Listing the addresses; those that have to be loaded get identifiers from `n` on. -/
def list (n : ℕ) : Action := .getAddresses Order.held fun i => repeated 16 (n + i)

/-- The address generated from a small secret. -/
def generated (n : ℕ) : Bytes :=
  addressEncodeBase58Check reference (toTronAddress (reference.keyPair (smallSecret n)).m_address)

end TronWallet.Reference
