import TronWallet.Model.SendForm
import TronWallet.Reference.Contracts
import TronWallet.Reference.Runs
import TronWallet.Reference.SendRuns

/-!
# What the hot wallet signs

`SendToken` asks the node to build a transfer and signs what the node answers.  Nothing
between the answer and the signature looks at the contracts: `SignTransaction` replaces the
time and appends signatures.  So what is broadcast has the contracts of the answer, whatever
they are (`broadcast_is_answer`), and is the transfer that was asked for exactly when the
answer is.
-/

set_option autoImplicit false

namespace TronWallet.Theorems

open TronWallet.Lib TronWallet.Model TronWallet.Reference

/-- A transaction with exactly one contract, which unpacks to the one that was asked for. -/
def HoldsExactly (M : Messages) (request : SendForm.SendRequest) (t : Transaction) : Prop :=
  ∃ c, t.raw_data.contract = [c] ∧
    match request with
    | .createTransaction transfer => M.unpackTransfer c.parameter = some transfer
    | .transferAsset transfer => M.unpackTransferAsset c.parameter = some transfer

variable {P : Platform} {M : Messages}

/-- Whether a transaction is the one asked for depends on its contracts alone. -/
theorem holdsExactly_congr {request : SendForm.SendRequest} {t u : Transaction}
    (h : t.raw_data.contract = u.raw_data.contract) :
    HoldsExactly M request t ↔ HoldsExactly M request u := by
  unfold HoldsExactly
  rw [h]

/-- A transaction that is signed gets the time and the signatures under the key of the
account logged in. -/
theorem signTransaction_eq_true {now : ℤ} {t signed : Transaction} {w w' : Wallet}
    (h : signTransaction P M now t w = .ok (true, signed) w') :
    w.Address ≠ [] ∧ ∃ key, Wallet.getPrivate P (toAddress w.Address) w = .ok key w' ∧
      addSignatures P M key { t with raw_data := { t.raw_data with timestamp := now } } =
        (true, signed) := by
  unfold signTransaction at h
  simp only [Exec.bind_apply, Exec.get_apply] at h
  by_cases haddress : w.Address = []
  · rw [if_pos haddress] at h
    cases h
  · rw [if_neg haddress] at h
    refine ⟨haddress, ?_⟩
    simp only [Exec.bind_apply] at h
    cases hget : Wallet.getPrivate P (toAddress w.Address) w with
    | error e w₁ =>
        rw [hget] at h
        cases h
    | ok key w₁ =>
        rw [hget] at h
        dsimp only at h
        by_cases hkey : key.m_data = []
        · rw [if_pos hkey] at h
          cases h
        · rw [if_neg hkey] at h
          obtain ⟨hsigned, rfl⟩ := EStateM.Result.ok.inj h
          exact ⟨key, rfl, hsigned⟩

/-- **What is broadcast is the answer**, with the time of signing and a signature for each
contract under the key of the account logged in; there is a contract.  It is the transfer
that was asked for if and only if the answer is. -/
theorem broadcast_is_answer (owner recipient type : Bytes) (amount now : ℤ)
    (answer : Transaction) {w w' : Wallet} {sent : Transaction}
    (h : (SendForm.sendToken P M owner recipient type amount).2 now answer w =
      .ok (.broadcast sent) w') :
    answer.raw_data.contract ≠ [] ∧
      sent.raw_data = { answer.raw_data with timestamp := now } ∧
      (∃ key, Wallet.getPrivate P (toAddress w.Address) w = .ok key w' ∧
        sent.signature = answer.signature ++ List.replicate answer.raw_data.contract.length
          (signatureOf P M key sent.raw_data)) ∧
      (HoldsExactly M (SendForm.sendToken P M owner recipient type amount).1 sent ↔
        HoldsExactly M (SendForm.sendToken P M owner recipient type amount).1 answer) := by
  change SendForm.onCreated P M now answer w = .ok (.broadcast sent) w' at h
  unfold SendForm.onCreated at h
  simp only [Exec.bind_apply] at h
  cases hsign : signTransaction P M now answer w with
  | error e w₁ =>
      rw [hsign] at h
      cases h
  | ok r w₁ =>
      rw [hsign] at h
      obtain ⟨success, t⟩ := r
      cases success with
      | false => cases h
      | true =>
          cases h
          obtain ⟨-, key, hget, hadd⟩ := signTransaction_eq_true hsign
          obtain ⟨hne, rfl⟩ := addSignatures_eq_true P M hadd
          exact ⟨hne, rfl, ⟨key, hget, rfl⟩, holdsExactly_congr rfl⟩

/-! ## Two answers -/

/-- A wallet in which an account is logged in. -/
def hotWallet : Wallet := Wallet.run reference [create [97] [2] 1]

/-- What the form asks for: one TRX for Alice. -/
def askedTransfer : SendForm.SendRequest × (ℤ → Transaction → Exec Wallet SendForm.SendResult) :=
  SendForm.sendToken reference messages.toMessages hotWallet.Address aliceAddress trxName 1000000

/-- An answer of the node. -/
def answerWith (contracts : List Contract) : Transaction where
  raw_data := { contract := contracts }

/-- What is broadcast for an answer. -/
def sentFor (answer : Transaction) : Transaction :=
  match Exec.result? (askedTransfer.2 5 answer) hotWallet with
  | some (.broadcast sent) => sent
  | _ => {}

/-- The answer of an honest node. -/
def honestAnswer : Transaction := answerWith [transferOf hotWallet.Address aliceAddress 1000000]

/-- An answer with another recipient and a greater amount. -/
def otherAnswer : Transaction := answerWith [transferOf hotWallet.Address bobAddress 5000000]

/-- With an honest node the transfer that was asked for is broadcast. -/
theorem broadcast_is_answer_honest :
    (sentFor honestAnswer).raw_data = { honestAnswer.raw_data with timestamp := 5 } ∧
      (HoldsExactly messages.toMessages askedTransfer.1 (sentFor honestAnswer) ↔
        HoldsExactly messages.toMessages askedTransfer.1 honestAnswer) := by
  have hsent : Exec.result? (askedTransfer.2 5 honestAnswer) hotWallet =
      some (.broadcast (sentFor honestAnswer)) := by decide +kernel
  have hanswer := broadcast_is_answer hotWallet.Address aliceAddress trxName 1000000 5
    honestAnswer (Exec.result?_eq_some.mp hsent)
  exact ⟨hanswer.2.1, hanswer.2.2.2⟩

/-- A transfer to somebody else is signed and broadcast when the node answers with it. -/
theorem other_recipient_signed :
    Exec.result? (askedTransfer.2 5 otherAnswer) hotWallet =
        some (.broadcast (sentFor otherAnswer)) ∧
      ¬HoldsExactly messages.toMessages askedTransfer.1 (sentFor otherAnswer) := by
  refine ⟨by decide +kernel, fun h => ?_⟩
  obtain ⟨c, hc, hunpack⟩ := h
  have hcontract : (sentFor otherAnswer).raw_data.contract =
      [transferOf hotWallet.Address bobAddress 5000000] := by decide +kernel
  obtain ⟨rfl, -⟩ := List.cons.inj (hcontract.symm.trans hc)
  have hother :
      messages.unpackTransfer (transferOf hotWallet.Address bobAddress 5000000).parameter ≠
        some ⟨hotWallet.Address, aliceAddress, 1000000⟩ := by decide +kernel
  exact hother hunpack

end TronWallet.Theorems
