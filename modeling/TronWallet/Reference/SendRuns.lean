import TronWallet.Model.InfoForms
import TronWallet.Model.SendForm
import TronWallet.Reference.Platform

/-!
# Transfers on given inputs

Two accounts and the actions in which one is selected and its reply comes.  Amounts are
whole numbers, on which `double` computes as `integers` does.
-/

set_option autoImplicit false

namespace TronWallet.Reference

open TronWallet.Lib TronWallet.Model

/-- The number a text of digits stands for. -/
def readDigits (b : Bytes) : Option ℤ :=
  if b ≠ [] ∧ b.all (fun c => 48 ≤ c ∧ c ≤ 57) then
    some (b.foldl (fun n c => 10 * n + (c.toNat - 48 : ℕ)) 0)
  else none

/-- The whole numbers as amounts. -/
def integers : Doubles where
  Number := ℤ
  ofInt n := n
  toInt64 n := n
  mul a b := a * b
  le a b := decide (a ≤ b)
  gt a b := decide (b < a)
  stringToDouble := readDigits
  printf4 n := signedDecimal n ++ [46, 48, 48, 48, 48]

/-! ## Two accounts -/

def aliceAddress : Bytes := 0x41 :: List.replicate 20 1

def bobAddress : Bytes := 0x41 :: List.replicate 20 2

/-- The address as the user enters it. -/
def aliceText : Bytes := addressEncodeBase58Check reference aliceAddress

def bobText : Bytes := addressEncodeBase58Check reference bobAddress

/-- The name of an asset. -/
def assetName : Bytes := [88]

/-- An account with five units of the asset and five TRX. -/
def aliceAccount : AccountMessage where
  balance := 5000000
  asset := (∅ : UnorderedMap Bytes ℤ).insert assetName 5

/-- An account without assets. -/
def bobAccount : AccountMessage where
  balance := 7000000

/-- An account is selected and its reply comes. -/
def selecting (address : Bytes) (a : AccountMessage) : List SendAction :=
  [.updateAddress address true, .reply Order.held 0 a]

end TronWallet.Reference
