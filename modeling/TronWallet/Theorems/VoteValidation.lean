import Mathlib.Algebra.Order.BigOperators.Group.List
import TronWallet.Analysis.Amounts
import TronWallet.Model.VoteForm
import TronWallet.Reference.Rationals

/-!
# When a vote is let through

The counts of a contract are added up in an `int`, each sum first made in 64 bits and then
cut to 32.  What is left in the end is the sum modulo `2 ^ 32` whatever the sums before it
have been, so the contract is compared by that number, and the comparison is right whenever
the number falls on the same side of the power as the sum itself.

The number is never above the sum.  A contract with a right sum is therefore never turned
down, and a wrong one is let through when enough multiples of `2 ^ 32` have been lost.
-/

set_option autoImplicit false

namespace TronWallet.Theorems

open TronWallet.Lib.FixedWidth TronWallet.Model TronWallet.Analysis TronWallet.Reference

/-- The counts of a contract, added up. -/
def voteTotal (contract : VoteWitnessContract) : ℤ := (contract.votes.map Vote.vote_count).sum

/-- A contract that may be signed: it votes, no count is negative, and the votes are worth no
more than what is frozen. -/
def VotesAllowed (contract : VoteWitnessContract) (a : FormAccount) : Prop :=
  contract.votes ≠ [] ∧ (∀ vote ∈ contract.votes, 0 ≤ vote.vote_count) ∧
    trxDropRate * voteTotal contract ≤ a.frozen.sum

/-- The sum and what an `int` holds of it fall on one side of the power, unless the contract is
turned down for another reason. -/
def SumHeld (contract : VoteWitnessContract) (a : FormAccount) : Prop :=
  contract.votes = [] ∨ (∃ vote ∈ contract.votes, vote.vote_count < 0) ∨
    trxDropRate * voteTotal contract ≤ a.frozen.sum ∨
    a.frozen.sum < trxDropRate * Int.bmod (voteTotal contract) (2 ^ 32)

/-! ## The sum -/

/-- The loop ends early at a negative count, and else holds the sum in 32 bits. -/
theorem sumLoop_eq (votes : List Vote) (sum : ℤ) :
    VoteForm.sumLoop votes (wrap 32 sum) =
      if ∃ vote ∈ votes, vote.vote_count < 0 then none
      else some (wrap 32 (sum + (votes.map Vote.vote_count).sum)) := by
  induction votes generalizing sum with
  | nil =>
      rw [if_neg (by simp), List.map_nil, List.sum_nil, add_zero]
      rfl
  | cons vote rest ih =>
      unfold VoteForm.sumLoop
      simp only [List.exists_mem_cons_iff, List.map_cons, List.sum_cons]
      by_cases hneg : vote.vote_count < 0
      · rw [if_pos hneg, if_pos (Or.inl hneg)]
      · have hstep : wrap 32 (wrap 64 (wrap 32 sum + vote.vote_count)) =
            wrap 32 (sum + vote.vote_count) := by
          rw [wrap_wrap_of_le (by omega), wrap_wrap_add]
        rw [if_neg hneg, hstep, ih]
        simp only [hneg, false_or, add_assoc]

/-! ## The check -/

/-- No count is negative when none has been found that is. -/
theorem counts_nonneg {votes : List Vote} (h : ¬∃ vote ∈ votes, vote.vote_count < 0) :
    ∀ vote ∈ votes, 0 ≤ vote.vote_count := by
  intro vote hmem
  by_contra hlt
  exact h ⟨vote, hmem, not_le.mp hlt⟩

section Check

variable {D : FormDoubles} {contract : VoteWitnessContract}

/-- The power is compared with what is held of the sum. -/
theorem validateContract_eq_nil_iff (hD : ExactProducts D.toDoubles) {tron_power : ℤ} :
    VoteForm.validateContract D contract tron_power = [] ↔
      contract.votes ≠ [] ∧ (∀ vote ∈ contract.votes, 0 ≤ vote.vote_count) ∧
        trxDropRate * wrap 32 (voteTotal contract) ≤ tron_power := by
  have hrate : trxDropRate = 1000000 := rfl
  have hheld := fits_wrap (w := 32) (by omega) (voteTotal contract)
  have hdrops : toDrop D.toDoubles (D.ofInt (wrap 32 (voteTotal contract))) =
      wrap 32 (voteTotal contract) * trxDropRate := by
    unfold Fits at hheld
    apply toDrop_ofInt hD
    · rw [hrate]
      omega
    · rw [hrate]
      omega
  have hloop : VoteForm.sumLoop contract.votes 0 = _ := sumLoop_eq contract.votes 0
  rw [zero_add] at hloop
  unfold VoteForm.validateContract
  by_cases hvotes : contract.votes = []
  · rw [if_pos (by rw [hvotes, List.length_nil])]
    exact iff_of_false (by decide) fun h => h.1 hvotes
  rw [if_neg (by rwa [List.length_eq_zero_iff]), hloop]
  by_cases hneg : ∃ vote ∈ contract.votes, vote.vote_count < 0
  · rw [if_pos hneg]
    obtain ⟨vote, hmem, hlt⟩ := hneg
    have herr : ascii "vote count must be greater than 0" ≠ [] := by decide
    exact iff_of_false herr fun h => absurd (h.2.1 vote hmem) (not_le.mpr hlt)
  have hnonneg := counts_nonneg hneg
  rw [if_neg hneg]
  change (if tron_power < toDrop D.toDoubles (D.ofInt (wrap 32 (voteTotal contract))) then _
    else _) = [] ↔ _
  rw [hdrops]
  by_cases hpower : tron_power < wrap 32 (voteTotal contract) * trxDropRate
  · rw [if_pos hpower]
    refine iff_of_false (List.append_ne_nil_of_left_ne_nil (by decide) _) ?_
    rintro ⟨-, -, hle⟩
    rw [mul_comm] at hle
    exact absurd hpower (not_lt.mpr hle)
  · rw [if_neg hpower]
    refine iff_of_true rfl ⟨hvotes, hnonneg, ?_⟩
    rw [mul_comm]
    exact not_lt.mp hpower

/-- **Exactly when a contract is validated by the sum of its votes.** -/
theorem validated_iff (hD : ExactProducts D.toDoubles) {a : FormAccount}
    (hfrozen : Fits 64 a.frozen.sum) :
    (VoteForm.validateContract D contract (calcTronPower a) = [] ↔ VotesAllowed contract a) ↔
      SumHeld contract a := by
  have hrate : trxDropRate = 1000000 := rfl
  have hbmod : Int.bmod (voteTotal contract) (2 ^ 32) = wrap 32 (voteTotal contract) := rfl
  rw [validateContract_eq_nil_iff hD, calcTronPower_of_fits hfrozen]
  unfold VotesAllowed SumHeld
  rw [hbmod, hrate]
  by_cases hvotes : contract.votes = []
  · simp [hvotes]
  by_cases hneg : ∃ vote ∈ contract.votes, vote.vote_count < 0
  · have hall : ¬∀ vote ∈ contract.votes, 0 ≤ vote.vote_count := by
      obtain ⟨vote, hmem, hlt⟩ := hneg
      exact fun h => absurd (h vote hmem) (not_le.mpr hlt)
    simp [hneg, hall]
  have hnonneg := counts_nonneg hneg
  have htotal : 0 ≤ voteTotal contract := by
    apply List.sum_nonneg
    intro count hcount
    obtain ⟨vote, hmem, rfl⟩ := List.mem_map.mp hcount
    exact hnonneg vote hmem
  have hle := wrap_le (w := 32) htotal
  simp only [ne_eq, hvotes, not_false_eq_true, true_and, hneg, false_or]
  constructor
  · intro h
    by_cases hpower : a.frozen.sum < 1000000 * wrap 32 (voteTotal contract)
    · exact Or.inr hpower
    · exact Or.inl (h.mp ⟨hnonneg, not_lt.mp hpower⟩).2
  · rintro (h | h)
    · refine iff_of_true ⟨hnonneg, ?_⟩ ⟨hnonneg, h⟩
      omega
    · refine iff_of_false (fun hmod => absurd hmod.2 (not_le.mpr h)) ?_
      rintro ⟨-, hsum⟩
      omega

end Check

/-! ## Given contracts -/

/-- A contract with some counts. -/
def countsOf (counts : List ℤ) : VoteWitnessContract where
  owner_address := [65]
  votes := counts.map fun count => { vote_address := [65], vote_count := count }

/-- An account with some frozen balances. -/
def frozenAccount (balances : List ℤ) : FormAccount where
  address := [65]
  frozen := balances

/-- Seven votes and nine frozen TRX. -/
theorem validated_seven :
    VoteForm.validateContract (rationals readDecimal) (countsOf [3, 4])
        (calcTronPower (frozenAccount [4000000, 5000000])) = [] ↔
      VotesAllowed (countsOf [3, 4]) (frozenAccount [4000000, 5000000]) := by
  have hfrozen : Fits 64 (frozenAccount [4000000, 5000000]).frozen.sum := by decide
  rw [validated_iff (exactProducts_rationals readDecimal) hfrozen]
  refine Or.inr (Or.inr (Or.inl ?_))
  decide

/-- A count of `2 ^ 32` is let through with nothing frozen, and a transaction asked for. -/
theorem lost_votes_validated :
    VoteForm.validateContract (rationals readDecimal) (countsOf [2 ^ 32])
        (calcTronPower (frozenAccount [])) = [] ∧
    (∀ (P : Platform) (U : Unicode), VoteForm.onAccount P U (rationals readDecimal)
      (countsOf [2 ^ 32]) (frozenAccount []) = .ok (countsOf [2 ^ 32])) ∧
    ¬VotesAllowed (countsOf [2 ^ 32]) (frozenAccount []) := by
  have hcheck : VoteForm.validateContract (rationals readDecimal) (countsOf [2 ^ 32])
      (calcTronPower (frozenAccount [])) = [] := by decide +kernel
  refine ⟨hcheck, ?_, ?_⟩
  · intro P U
    unfold VoteForm.onAccount
    simp only [hcheck]
    rfl
  · rintro ⟨-, -, hle⟩
    exact absurd hle (by decide)

end TronWallet.Theorems
