import TronWallet.Analysis.Texts
import TronWallet.Model.FreezeForm
import TronWallet.Reference.Platform

/-!
# The balance that is frozen

A number of whole TRX goes through three steps on its way into the contract: it is read
into 64 bits, where the largest number stands for all that do not fit; it is multiplied by
`10 ^ 6` in 64 bits; and the product is compared with the balance, from above only.  What
is let through is the amount typed unless the product has wrapped, to a number that is then
no more than the balance.
-/

set_option autoImplicit false

namespace TronWallet.Theorems

open TronWallet.Lib.FixedWidth TronWallet.Model TronWallet.Analysis TronWallet.Reference

/-- What is let through is the amount typed, is positive and is no more than the balance. -/
def FreezesTyped (result : Except Wide FreezeBalanceContract) (n : ℕ) (balance : ℤ) : Prop :=
  ∀ c, result = .ok c →
    c.frozen_balance = 1000000 * n ∧ 0 < c.frozen_balance ∧ c.frozen_balance ≤ balance

/-- The drops fit, or what stands for them in 64 bits is more than the balance, or there is no
account. -/
def DropsHeld (n : ℕ) (a : FormAccount) : Prop :=
  1000000 * n < 2 ^ 63 ∨
    a.balance < Int.bmod (1000000 * min (n : ℤ) (2 ^ 63 - 1)) (2 ^ 64) ∨ a.address = []

section Freeze

variable {P : Platform} {U : Unicode} {s : FreezeForm} {text : Bytes} {a : FormAccount}

/-- The contract of a text of digits. -/
theorem createContract_digits (hdigits : DigitText text) (hpos : typedNumber text ≠ 0) :
    s.createContract U (widen text) =
      .ok ⟨s.address_, wrap 64 (1000000 * min (typedNumber text : ℤ) (2 ^ 63 - 1)), 3⟩ := by
  have htext : widen text ≠ [] := by
    intro h
    have hnil : text = [] := List.map_eq_nil_iff.mp h
    rw [hnil] at hpos
    exact hpos rfl
  unfold FreezeForm.createContract
  rw [if_neg htext, stringToInt64_widen U hdigits]
  dsimp only
  rw [if_neg (by omega), mul_comm]

/-- There is no contract of zero. -/
theorem createContract_zero (hdigits : DigitText text) (hzero : typedNumber text = 0) :
    ∃ err, s.createContract U (widen text) = .error err := by
  unfold FreezeForm.createContract
  by_cases htext : widen text = []
  · rw [if_pos htext]
    exact ⟨_, rfl⟩
  · rw [if_neg htext, stringToInt64_widen U hdigits]
    dsimp only
    rw [if_pos (by omega)]
    exact ⟨_, rfl⟩

/-- What the button lets through. -/
theorem onButtonClick_eq_ok_iff (hdigits : DigitText text) (hpos : typedNumber text ≠ 0)
    {c : FreezeBalanceContract} :
    s.onButtonClick P U (widen text) a = .ok c ↔
      c = ⟨s.address_, wrap 64 (1000000 * min (typedNumber text : ℤ) (2 ^ 63 - 1)), 3⟩ ∧
        a.address ≠ [] ∧ c.frozen_balance ≤ a.balance := by
  unfold FreezeForm.onButtonClick
  rw [createContract_digits hdigits hpos]
  change FreezeForm.onAccount P U _ a = .ok c ↔ _
  unfold FreezeForm.onAccount
  dsimp only
  by_cases haddress : a.address = []
  · rw [if_pos haddress]
    exact iff_of_false (by simp) fun h => h.2.1 haddress
  rw [if_neg haddress]
  by_cases hbalance :
      a.balance < wrap 64 (1000000 * min (typedNumber text : ℤ) (2 ^ 63 - 1))
  · rw [if_pos hbalance]
    refine iff_of_false (by simp) ?_
    rintro ⟨rfl, -, hle⟩
    exact absurd hbalance (not_lt.mpr hle)
  · rw [if_neg hbalance]
    constructor
    · intro h
      obtain rfl := Except.ok.inj h
      exact ⟨rfl, haddress, not_lt.mp hbalance⟩
    · rintro ⟨rfl, -, -⟩
      rfl

/-- **Exactly when the amount typed is frozen.** -/
theorem freezesTyped_iff (hdigits : DigitText text) :
    FreezesTyped (s.onButtonClick P U (widen text) a) (typedNumber text) a.balance ↔
      DropsHeld (typedNumber text) a := by
  have hheld : Int.bmod (1000000 * min (typedNumber text : ℤ) (2 ^ 63 - 1)) (2 ^ 64) =
      wrap 64 (1000000 * min (typedNumber text : ℤ) (2 ^ 63 - 1)) := rfl
  unfold FreezesTyped DropsHeld
  rw [hheld]
  by_cases hpos : typedNumber text = 0
  · obtain ⟨err, herr⟩ := createContract_zero (U := U) (s := s) hdigits hpos
    have hnone : s.onButtonClick P U (widen text) a = .error err := by
      unfold FreezeForm.onButtonClick
      rw [herr]
      rfl
    refine iff_of_true ?_ (Or.inl (by omega))
    intro c hc
    rw [hnone] at hc
    cases hc
  constructor
  · intro h
    by_cases haddress : a.address = []
    · exact Or.inr (Or.inr haddress)
    by_cases hbalance :
        a.balance < wrap 64 (1000000 * min (typedNumber text : ℤ) (2 ^ 63 - 1))
    · exact Or.inr (Or.inl hbalance)
    -- What is let through is in range, and equal to the product.
    obtain ⟨hexact, -, -⟩ := h _ ((onButtonClick_eq_ok_iff hdigits hpos).mpr
      ⟨rfl, haddress, not_lt.mp hbalance⟩)
    have hfits := fits_wrap (w := 64) (by omega)
      (1000000 * min (typedNumber text : ℤ) (2 ^ 63 - 1))
    dsimp only at hexact
    rw [hexact] at hfits
    unfold Fits at hfits
    exact Or.inl (by omega)
  · intro h c hc
    obtain ⟨hcontract, haddress, hbalance⟩ := (onButtonClick_eq_ok_iff hdigits hpos).mp hc
    have hfrozen : c.frozen_balance =
        wrap 64 (1000000 * min (typedNumber text : ℤ) (2 ^ 63 - 1)) := by rw [hcontract]
    rcases h with hlt | hless | hnone
    · have hfits : Fits 64 (1000000 * (typedNumber text : ℤ)) :=
        (fits_iff_of_nonneg (by omega)).mpr (by omega)
      rw [min_int64_of_lt (by omega), wrap_of_fits (by omega) hfits] at hfrozen
      refine ⟨hfrozen, ?_, hbalance⟩
      omega
    · omega
    · exact absurd hnone haddress

end Freeze

/-! ## Given amounts -/

/-- The form of an address. -/
def freezeForm : FreezeForm := { address_ := [65] }

/-- An account with five TRX. -/
def fiveAccount : FormAccount := { address := [65], balance := 5000000 }

/-- Five TRX are frozen of five. -/
theorem freezesTyped_five :
    FreezesTyped (freezeForm.onButtonClick reference narrow (widen [53]) fiveAccount)
      (typedNumber [53]) 5000000 := by
  have hdigits : DigitText [53] := by decide
  refine (freezesTyped_iff (a := fiveAccount) hdigits).mpr (Or.inl ?_)
  decide

/-- `2 ^ 58 + 1` in digits. -/
def wrappingAmount : Bytes :=
  [50, 56, 56, 50, 51, 48, 51, 55, 54, 49, 53, 49, 55, 49, 49, 55, 52, 53]

/-- More than `10 ^ 17` TRX are entered, and one is frozen. -/
theorem wrapped_amount_frozen :
    DigitText wrappingAmount ∧ typedNumber wrappingAmount = 2 ^ 58 + 1 ∧
    freezeForm.onButtonClick reference narrow (widen wrappingAmount) fiveAccount =
      .ok ⟨[65], 1000000, 3⟩ ∧
    ¬FreezesTyped (freezeForm.onButtonClick reference narrow (widen wrappingAmount) fiveAccount)
      (typedNumber wrappingAmount) 5000000 := by
  have hdigits : DigitText wrappingAmount := by decide
  have hvalue : typedNumber wrappingAmount = 2 ^ 58 + 1 := by decide
  have hfrozen : freezeForm.onButtonClick reference narrow (widen wrappingAmount) fiveAccount =
      .ok ⟨[65], 1000000, 3⟩ := by
    rw [onButtonClick_eq_ok_iff hdigits (by rw [hvalue]; decide), hvalue]
    decide
  refine ⟨hdigits, hvalue, hfrozen, ?_⟩
  intro h
  obtain ⟨hexact, -⟩ := h _ hfrozen
  rw [hvalue] at hexact
  exact absurd hexact (by decide)

end TronWallet.Theorems
