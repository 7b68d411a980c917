import TronWallet.Analysis.Texts
import TronWallet.Model.TokenForms
import TronWallet.Reference.Platform

/-!
# The token updates that are submitted

The button of the modify form checks four texts, breaks off at the first that fails, and
then submits what it has assigned so far, whatever the checks said.  The bound of the
limits is a `long`: on the target it is the number that 32 bits hold of the intended one.

So an update is submitted at every press.  It is the one entered, with nothing shown,
exactly for the texts that the checks are meant to accept and whose limits are below the
bound that is left.
-/

set_option autoImplicit false

namespace TronWallet.Theorems

open TronWallet.Lib.FixedWidth TronWallet.Model TronWallet.Analysis TronWallet.Reference
open TronWallet.Model.TokenModifyForm

/-- The text of a control is a decimal number, with a sign or without. -/
def ReadsAs (text : Wide) (v : ℤ) : Prop :=
  ∃ b, text = widen b ∧ decimalNumber b = some v

/-- **The texts to be accepted** when the limits have a given bound. -/
def Acceptable (bound : ℤ) (e : Edits) : Prop :=
  e.description ≠ [] ∧ e.url ≠ [] ∧
    (∃ v, ReadsAs e.bandwidth_limit v ∧ 0 ≤ v ∧ v < bound) ∧
    ∃ v, ReadsAs e.total_bandwidth_limit v ∧ 0 ≤ v ∧ v < bound

/-- **Only what is validated is submitted**: an update is submitted exactly for acceptable
texts, its limits are the numbers entered, and a message box means that nothing is. -/
def OnlyValidated (result : Option Wide × Option UpdateAssetContract) (e : Edits) : Prop :=
  (result.2.isSome ↔ Acceptable 57600000000 e) ∧
    (∀ c, result.2 = some c →
      ReadsAs e.bandwidth_limit c.new_limit ∧ ReadsAs e.total_bandwidth_limit c.new_public_limit) ∧
    (result.1.isSome → result.2 = none)

/-! ## What the checks do -/

section Checks

variable {U : Unicode}

/-- The bound that 32 bits hold. -/
theorem oneDayNetLimit_eq : oneDayNetLimit = 1765425152 := by decide

/-- The number read from the text of a control, as far as it fits. -/
theorem limit_of_readsAs {text : Wide} {v : ℤ} (h : ReadsAs text v) (hlow : 0 ≤ v)
    (hhigh : v < 57600000000) : (stringToInt64 (wideToUTF8 U text)).2 = v := by
  obtain ⟨b, rfl, hb⟩ := h
  have hfits : Fits 64 v := by
    unfold Fits
    omega
  rw [stringToInt64_widen_decimalNumber U hb hfits]

/-- A text that is read as a number is not empty. -/
theorem ne_nil_of_readsAs {text : Wide} {v : ℤ} (h : ReadsAs text v) : text ≠ [] := by
  obtain ⟨b, rfl, hb⟩ := h
  intro hnil
  have hb' : b = [] := List.map_eq_nil_iff.mp hnil
  rw [hb'] at hb
  simp [decimalNumber] at hb

/-- A text passes the checks of a limit. -/
def PassesLimit (U : Unicode) (text : Wide) : Prop :=
  text ≠ [] ∧ 0 ≤ (stringToInt64 (wideToUTF8 U text)).2 ∧
    (stringToInt64 (wideToUTF8 U text)).2 < 1765425152

/-- The test of a limit that has been read. -/
theorem limitTest_iff {text : Wide} (htext : text ≠ []) :
    ((stringToInt64 (wideToUTF8 U text)).2 < 0 ∨
        oneDayNetLimit ≤ (stringToInt64 (wideToUTF8 U text)).2) ↔ ¬ PassesLimit U text := by
  unfold PassesLimit
  rw [oneDayNetLimit_eq]
  constructor
  · rintro htest ⟨-, hlow, hhigh⟩
    omega
  · intro hfails
    by_contra htest
    exact hfails ⟨htext, by omega, by omega⟩

/-- **Nothing is shown exactly when every check is passed.** -/
theorem checkInputs_message_eq_none_iff (e : Edits) :
    (checkInputs U e).1 = none ↔ e.description ≠ [] ∧ e.url ≠ [] ∧
      PassesLimit U e.bandwidth_limit ∧ PassesLimit U e.total_bandwidth_limit := by
  unfold checkInputs
  dsimp only
  by_cases hdesc : e.description = []
  · simp [hdesc]
  by_cases hurl : e.url = []
  · simp [hdesc, hurl]
  rw [if_neg hdesc, if_neg hurl]
  by_cases hlimit : e.bandwidth_limit = []
  · simp [hlimit, PassesLimit]
  rw [if_neg hlimit]
  by_cases hpasses : PassesLimit U e.bandwidth_limit
  · rw [if_neg (mt (limitTest_iff hlimit).mp (not_not.mpr hpasses))]
    by_cases htotal : e.total_bandwidth_limit = []
    · simp [htotal, PassesLimit]
    rw [if_neg htotal]
    by_cases hpasses' : PassesLimit U e.total_bandwidth_limit
    · rw [if_neg (mt (limitTest_iff htotal).mp (not_not.mpr hpasses'))]
      simp [hdesc, hurl, hpasses, hpasses']
    · rw [if_pos ((limitTest_iff htotal).mpr hpasses')]
      simp [hpasses']
  · rw [if_pos ((limitTest_iff hlimit).mpr hpasses)]
    simp [hpasses]

/-- What the checks assign when nothing is shown. -/
theorem checkInputs_limits {e : Edits} (h : (checkInputs U e).1 = none) :
    (checkInputs U e).2.new_limit = (stringToInt64 (wideToUTF8 U e.bandwidth_limit)).2 ∧
      (checkInputs U e).2.new_public_limit =
        (stringToInt64 (wideToUTF8 U e.total_bandwidth_limit)).2 := by
  obtain ⟨hdesc, hurl, hlimit, htotal⟩ := (checkInputs_message_eq_none_iff e).mp h
  unfold checkInputs
  dsimp only
  rw [if_neg hdesc, if_neg hurl, if_neg hlimit.1,
    if_neg (mt (limitTest_iff hlimit.1).mp (not_not.mpr hlimit)), if_neg htotal.1,
    if_neg (mt (limitTest_iff htotal.1).mp (not_not.mpr htotal))]
  exact ⟨rfl, rfl⟩

/-- A limit below the bound passes the checks. -/
theorem passesLimit_of_readsAs {text : Wide} {v : ℤ} (h : ReadsAs text v) (hlow : 0 ≤ v)
    (hhigh : v < 57600000000) : PassesLimit U text ↔ v < 1765425152 := by
  unfold PassesLimit
  rw [limit_of_readsAs h hlow hhigh]
  constructor
  · rintro ⟨-, -, hlt⟩
    exact hlt
  · intro hlt
    exact ⟨ne_nil_of_readsAs h, hlow, hlt⟩

end Checks

/-! ## When only what is validated is submitted -/

/-- **An update is submitted at every press.** -/
theorem onButtonClick_submits (U : Unicode) (w : Wallet) (e : Edits) :
    ∃ c, (onButtonClick U w e).2 = some c ∧ c.new_limit = (checkInputs U e).2.new_limit ∧
      c.new_public_limit = (checkInputs U e).2.new_public_limit :=
  ⟨_, rfl, rfl, rfl⟩

/-- **Exactly the texts for which only what is validated is submitted**: those that are
acceptable under the bound of 32 bits. -/
theorem onlyValidated_iff (U : Unicode) (w : Wallet) (e : Edits) :
    OnlyValidated (onButtonClick U w e) e ↔ Acceptable 1765425152 e := by
  obtain ⟨c, hc, hlimit, htotal⟩ := onButtonClick_submits U w e
  have hmessage : (onButtonClick U w e).1 = (checkInputs U e).1 := rfl
  unfold OnlyValidated
  rw [hc, hmessage]
  constructor
  · rintro ⟨hsubmitted, -, hsilent⟩
    obtain ⟨hdesc, hurl, ⟨v, hv, hvlow, hvhigh⟩, ⟨v', hv', hvlow', hvhigh'⟩⟩ :=
      hsubmitted.mp rfl
    -- no message has been shown, as something is submitted
    have hnone : (checkInputs U e).1 = none := by
      by_contra hshown
      have hnothing := hsilent (Option.isSome_iff_ne_none.mpr hshown)
      cases hnothing
    obtain ⟨-, -, hpasses, hpasses'⟩ := (checkInputs_message_eq_none_iff e).mp hnone
    exact ⟨hdesc, hurl,
      ⟨v, hv, hvlow, (passesLimit_of_readsAs hv hvlow hvhigh).mp hpasses⟩,
      ⟨v', hv', hvlow', (passesLimit_of_readsAs hv' hvlow' hvhigh').mp hpasses'⟩⟩
  · rintro ⟨hdesc, hurl, ⟨v, hv, hvlow, hvhigh⟩, ⟨v', hv', hvlow', hvhigh'⟩⟩
    have hnone : (checkInputs U e).1 = none := by
      rw [checkInputs_message_eq_none_iff]
      exact ⟨hdesc, hurl, (passesLimit_of_readsAs hv hvlow (by omega)).mpr hvhigh,
        (passesLimit_of_readsAs hv' hvlow' (by omega)).mpr hvhigh'⟩
    obtain ⟨hread, hread'⟩ := checkInputs_limits hnone
    rw [limit_of_readsAs hv hvlow (by omega)] at hread
    rw [limit_of_readsAs hv' hvlow' (by omega)] at hread'
    refine ⟨?_, ?_, ?_⟩
    · refine iff_of_true rfl ⟨hdesc, hurl, ⟨v, hv, hvlow, by omega⟩, ⟨v', hv', hvlow', by omega⟩⟩
    · intro c' hc'
      cases hc'
      rw [hlimit, hread, htotal, hread']
      exact ⟨hv, hv'⟩
    · intro hshown
      rw [hnone] at hshown
      cases hshown

/-- With no description the message box is shown, and an empty update is submitted. -/
theorem unvalidated_update_submitted :
    ¬ OnlyValidated (onButtonClick narrow {} ⟨[], [], [], []⟩) ⟨[], [], [], []⟩ := by
  rintro ⟨-, -, hsilent⟩
  have hnothing := hsilent rfl
  cases hnothing

end TronWallet.Theorems
