import Mathlib.Tactic.Linarith
import TronWallet.Analysis.Texts
import TronWallet.Reference.Contracts
import TronWallet.Reference.Runs
import TronWallet.Reference.SendRuns
import TronWallet.Theorems.AddressCodec

/-!
# What is shown and what is signed

Two items are shown alike and signed with the same key: do they hold the same contracts?
`Terms` is what a contract says of parties and amounts.  Each form shows the terms of the
first contract through functions that are injective only in part, and nothing of the other
contracts.  `HiddenAgree` lists what the screen leaves out, and given equal screens it is
all that is needed, and no less than that, for the contracts to be the same
(`signedAsShown_iff`).
-/

set_option autoImplicit false

namespace TronWallet.Theorems

open TronWallet.Lib TronWallet.Model TronWallet.Analysis TronWallet.Reference

/-! ## What is signed -/

/-- The owner, the recipient, the asset, the amount and the vote addresses of a contract; a
contract that is none of those the wallet makes stands for itself. -/
inductive Terms where
  | transfer (owner toAddress : Bytes) (amount : ℤ)
  | transferAsset (owner toAddress asset_name : Bytes) (amount : ℤ)
  | vote (owner : Bytes) (votes : List Vote)
  | freeze (owner : Bytes) (amount : ℤ)
  | other (type : ContractType) (parameter : AnyMessage)
deriving DecidableEq

/-- What a contract says. -/
def terms (M : FormMessages) (c : Contract) : Terms :=
  match c.type with
  | .TransferContract =>
    match M.unpackTransfer c.parameter with
    | some t => .transfer t.owner_address t.to_address t.amount
    | none => .other c.type c.parameter
  | .TransferAssetContract =>
    match M.unpackTransferAsset c.parameter with
    | some t => .transferAsset t.owner_address t.to_address t.asset_name t.amount
    | none => .other c.type c.parameter
  | .VoteWitnessContract =>
    match M.unpackVoteWitness c.parameter with
    | some v => .vote v.owner_address v.votes
    | none => .other c.type c.parameter
  | .FreezeBalanceContract =>
    match M.unpackFreezeBalance c.parameter with
    | some f => .freeze f.owner_address f.frozen_balance
    | none => .other c.type c.parameter
  | _ => .other c.type c.parameter

/-! ## What the screen leaves out -/

/-- A name that is shown as it is: ASCII without a null character. -/
def ShownWhole (name : Bytes) : Prop := ∀ c ∈ name, c < 128 ∧ c ≠ 0

/-- What the screen leaves out of the first contract: which of the two transfers it is, the
part of an amount of TRX below one TRX, the part of the name of an asset that is not shown,
the digits of an amount beyond the precision of `double`, the owner and the addresses of a
vote, and all of a contract that cannot be read. -/
def FirstAgree : Terms → Terms → Prop
  | .transfer _ _ a, .transfer _ _ b => a.tmod trxDropRate = b.tmod trxDropRate
  | .transferAsset _ _ n a, .transferAsset _ _ m b =>
    (n = m ∨ (ShownWhole n ∧ ShownWhole m)) ∧
      (a = b ∨ (a.natAbs ≤ 2 ^ 53 ∧ b.natAbs ≤ 2 ^ 53))
  | .vote o v, .vote o' v' => o = o' ∧ v.map Vote.vote_address = v'.map Vote.vote_address
  | .freeze _ _, .freeze _ _ => True
  | .other t p, .other t' p' => t = t' ∧ p = p'
  | _, _ => False

/-- What the screen leaves out of the contracts: part of the first, and the others. -/
def HiddenAgree (M : FormMessages) : List Contract → List Contract → Prop
  | c :: cs, d :: ds =>
    FirstAgree (terms M c) (terms M d) ∧ cs.map (terms M) = ds.map (terms M)
  | _, _ => False

/-! ## What is relied on -/

/-- `%.4f` writes no blank, and a whole number of at most 53 bits exactly. -/
structure DoubleLaws (D : Doubles) : Prop where
  noBlank : ∀ a, 32 ∉ D.printf4 a
  exact : ∀ m n : ℤ, m.natAbs ≤ 2 ^ 53 → n.natAbs ≤ 2 ^ 53 →
    D.printf4 (D.ofInt m) = D.printf4 (D.ofInt n) → m = n

/-- The amount of a transfer is a number of 64 bits. -/
def AmountsInt64 (M : FormMessages) : Prop :=
  ∀ p t, M.unpackTransfer p = some t → -2 ^ 63 ≤ t.amount ∧ t.amount < 2 ^ 63

/-! ## Texts -/

section Texts

variable {D : Doubles} {P : Platform} {convertUnicode : Bytes → Wide}

/-- A name without null characters is not cut. -/
theorem shownName_of_whole {n : Bytes} (h : ShownWhole n) :
    wideCStr (utf8ToWide convertUnicode n) = widen n := by
  rw [utf8ToWide_of_ascii fun c hc => (h c hc).1]
  unfold wideCStr
  rw [List.takeWhile_eq_self_iff]
  intro c hc
  obtain ⟨b, hb, rfl⟩ := List.mem_map.mp hc
  rw [decide_eq_true_eq]
  intro hzero
  exact (h b hb).2 (UInt8.toUInt16_inj.mp hzero)

/-- An address can be told from its text. -/
theorem addressText_inj {a b : Bytes}
    (h : addressText P convertUnicode a = addressText P convertUnicode b) : a = b := by
  unfold addressText addressEncodeBase58Check at h
  have hascii : ∀ x : Bytes, ∀ c ∈ encodeBase58Check P x, c < 128 := fun x c hc =>
    ascii_of_base58Char (base58Char_encodeBase58 _ c hc)
  rw [utf8ToWide_of_ascii (hascii a), utf8ToWide_of_ascii (hascii b)] at h
  have hdecoded := congrArg (decodeBase58Check P) (widen_injective h)
  rw [decodeBase58Check_encodeBase58Check, decodeBase58Check_encodeBase58Check] at hdecoded
  exact (Prod.mk.inj hdecoded).2

/-- Texts without a separator can be told apart when one follows each. -/
theorem append_separator_inj {α : Type} {c : α} {x x' y y' : List α} (hx : c ∉ x) (hx' : c ∉ x')
    (h : x ++ c :: y = x' ++ c :: y') : x = x' ∧ y = y' := by
  induction x generalizing x' with
  | nil =>
      cases x' with
      | nil => exact ⟨rfl, (List.cons.inj h).2⟩
      | cons a x' => exact absurd ((List.cons.inj h).1 ▸ List.mem_cons_self) hx'
  | cons b x ih =>
      cases x' with
      | nil => exact absurd ((List.cons.inj h).1 ▸ List.mem_cons_self) hx
      | cons a x' =>
          obtain ⟨hba, hrest⟩ := List.cons.inj h
          obtain ⟨hxx, hyy⟩ := ih (fun hc => hx (List.mem_cons_of_mem _ hc))
            (fun hc => hx' (List.mem_cons_of_mem _ hc)) hrest
          exact ⟨by rw [hba, hxx], hyy⟩

/-- A blank separates the amount from the name. -/
theorem amountText_inj (hD : DoubleLaws D) {a b : D.Number} {n m : Bytes}
    (h : TransactionInfoForm.amountText D convertUnicode a n =
      TransactionInfoForm.amountText D convertUnicode b m) :
    D.printf4 a = D.printf4 b ∧
      wideCStr (utf8ToWide convertUnicode n) = wideCStr (utf8ToWide convertUnicode m) := by
  unfold TransactionInfoForm.amountText at h
  have hnoBlank : ∀ x, (32 : UInt16) ∉ widen (D.printf4 x) := by
    intro x hmem
    obtain ⟨c, hc, hblank⟩ := List.mem_map.mp hmem
    have hc32 : c = 32 := UInt8.toUInt16_inj.mp hblank
    exact hD.noBlank x (hc32 ▸ hc)
  obtain ⟨hamount, hname⟩ :=
    append_separator_inj (hnoBlank a) (hnoBlank b) (List.append_cancel_left h)
  exact ⟨widen_injective hamount, hname⟩

/-- An amount that is frozen can be told from its line. -/
theorem freezeAmountText_inj {a b : ℤ}
    (h : FreezeInfoForm.amountText a = FreezeInfoForm.amountText b) : a = b :=
  toWstring_inj (List.append_cancel_right (List.append_cancel_left h))

/-- The counts of votes can be told from the rows. -/
theorem counts_of_rows {names names' : StringMap} {votes votes' : List Vote}
    (h : VoteInfoForm.rows P convertUnicode names votes =
      VoteInfoForm.rows P convertUnicode names' votes') :
    votes.map Vote.vote_count = votes'.map Vote.vote_count := by
  have hcounts := congrArg (List.map Prod.snd) h
  unfold VoteInfoForm.rows at hcounts
  rw [List.map_map, List.map_map] at hcounts
  have htexts : (votes.map Vote.vote_count).map toWstring =
      (votes'.map Vote.vote_count).map toWstring := by
    rw [List.map_map, List.map_map]
    exact hcounts
  exact List.map_injective_iff.mpr (fun _ _ => toWstring_inj) htexts

/-- Votes with the same addresses and the same counts are the same. -/
theorem votes_eq {votes votes' : List Vote}
    (haddress : votes.map Vote.vote_address = votes'.map Vote.vote_address)
    (hcount : votes.map Vote.vote_count = votes'.map Vote.vote_count) : votes = votes' := by
  induction votes generalizing votes' with
  | nil =>
      cases votes' with
      | nil => rfl
      | cons v votes' => cases haddress
  | cons v votes ih =>
      cases votes' with
      | nil => cases haddress
      | cons v' votes' =>
          obtain ⟨ha, harest⟩ := List.cons.inj haddress
          obtain ⟨hc, hcrest⟩ := List.cons.inj hcount
          cases v
          cases v'
          cases ha
          cases hc
          rw [ih harest hcrest]

end Texts

/-! ## The first contract -/

section First

variable {D : Doubles} {P : Platform} {M : FormMessages} {convertUnicode : Bytes → Wide}

/-- What the form of transfers reads of the terms. -/
def infoOf (D : Doubles) (signature : Bool) : Terms → TransactionInfoForm.TransactionInfo D
  | .transfer owner toAddress amount => ⟨owner, toAddress, trxName, toTrx D amount, signature⟩
  | .transferAsset owner toAddress name amount =>
    ⟨owner, toAddress, name, D.ofInt amount, signature⟩
  | _ => {}

/-- The form of transfers reads the terms of the first contract. -/
theorem parse_transaction {t : Transaction} {c : Contract} {cs : List Contract}
    (h : t.raw_data.contract = c :: cs) :
    TransactionInfoForm.parseTransaction D M t = infoOf D (hasSignature t) (terms M c) := by
  obtain ⟨type, parameter, provider, name⟩ := c
  unfold TransactionInfoForm.parseTransaction terms
  rw [h]
  cases type
  case TransferContract => dsimp only; cases M.unpackTransfer parameter <;> rfl
  case TransferAssetContract => dsimp only; cases M.unpackTransferAsset parameter <;> rfl
  case VoteWitnessContract => dsimp only; cases M.unpackVoteWitness parameter <;> rfl
  case FreezeBalanceContract => dsimp only; cases M.unpackFreezeBalance parameter <;> rfl
  all_goals rfl

/-- What the form of frozen balances reads of the terms, the duration apart. -/
def frozenOf (signature : Bool) : Terms → Bool × Bytes × ℤ
  | .freeze owner amount => (signature, owner, amount)
  | _ => (false, [], 0)

/-- The form of frozen balances reads the terms of the first contract. -/
theorem parse_freeze {t : Transaction} {c : Contract} {cs : List Contract}
    (h : t.raw_data.contract = c :: cs) :
    ((FreezeInfoForm.parseTransaction M t).signature,
      (FreezeInfoForm.parseTransaction M t).owner_address,
      (FreezeInfoForm.parseTransaction M t).freeze_balance) =
        frozenOf (hasSignature t) (terms M c) := by
  obtain ⟨type, parameter, provider, name⟩ := c
  unfold FreezeInfoForm.parseTransaction terms
  rw [h]
  cases type
  case TransferContract => dsimp only; cases M.unpackTransfer parameter <;> rfl
  case TransferAssetContract => dsimp only; cases M.unpackTransferAsset parameter <;> rfl
  case VoteWitnessContract => dsimp only; cases M.unpackVoteWitness parameter <;> rfl
  case FreezeBalanceContract => dsimp only; cases M.unpackFreezeBalance parameter <;> rfl
  all_goals rfl

/-- The terms of a vote that can be read. -/
theorem terms_of_voteContract {t : Transaction} {v : VoteWitnessContract}
    (h : VoteInfoForm.voteContract M t = some v) :
    ∃ c cs, t.raw_data.contract = c :: cs ∧ terms M c = .vote v.owner_address v.votes := by
  unfold VoteInfoForm.voteContract at h
  split at h
  · cases h
  next c cs hcs =>
    split at h
    next htype =>
      refine ⟨c, cs, hcs, ?_⟩
      unfold terms
      simp only [htype, h]
    · cases h

/-- Which terms the first contract of an item can have, by the form made for it. -/
def OfKind (f : InfoForm) (T : Terms) : Prop :=
  match f with
  | .transaction _ =>
    match T with
    | .transfer .. | .transferAsset .. | .other .. => True
    | _ => False
  | .freeze _ =>
    match T with
    | .freeze .. | .other .. => True
    | _ => False
  | .vote .. => True

/-- The form made for an item suits its first contract. -/
theorem kind_of_created {x : LoadedItem} {f : InfoForm} {c : Contract} {cs : List Contract}
    (hx : createShowInfoControl x = some f) (hc : f.content.raw_data.contract = c :: cs) :
    OfKind f (terms M c) := by
  cases x with
  | vote v =>
      obtain ⟨t, -, rfl⟩ := Option.map_eq_some_iff.mp hx
      exact trivial
  | transaction t =>
      unfold createShowInfoControl at hx
      dsimp only at hx
      split at hx
      · cases hx
      next contract rest hcontract =>
        unfold terms
        split at hx
        all_goals cases hx
        all_goals
          obtain ⟨rfl, -⟩ := List.cons.inj (hcontract.symm.trans hc)
          rename_i htype
          simp only [htype]
        · cases M.unpackTransfer contract.parameter <;> exact trivial
        · cases M.unpackTransferAsset contract.parameter <;> exact trivial
        · cases M.unpackFreezeBalance contract.parameter <;> exact trivial

/-- The amount of a transfer that can be read is a number of 64 bits. -/
theorem amount_of_terms (hM : AmountsInt64 M) {c : Contract} {owner toAddress : Bytes} {a : ℤ}
    (h : terms M c = .transfer owner toAddress a) : -2 ^ 63 ≤ a ∧ a < 2 ^ 63 := by
  obtain ⟨type, parameter, provider, name⟩ := c
  unfold terms at h
  cases type
  case TransferContract =>
    cases hunpack : M.unpackTransfer parameter with
    | none =>
        simp only [hunpack] at h
        cases h
    | some t =>
        simp only [hunpack] at h
        cases h
        exact hM parameter t hunpack
  case TransferAssetContract =>
    dsimp only at h
    cases hunpack : M.unpackTransferAsset parameter <;> rw [hunpack] at h <;> cases h
  case VoteWitnessContract =>
    dsimp only at h
    cases hunpack : M.unpackVoteWitness parameter <;> rw [hunpack] at h <;> cases h
  case FreezeBalanceContract =>
    dsimp only at h
    cases hunpack : M.unpackFreezeBalance parameter <;> rw [hunpack] at h <;> cases h
  all_goals cases h

/-- The same contract agrees with itself. -/
theorem FirstAgree.refl (T : Terms) : FirstAgree T T := by
  cases T with
  | transfer => exact rfl
  | transferAsset => exact ⟨Or.inl rfl, Or.inl rfl⟩
  | vote => exact ⟨rfl, rfl⟩
  | freeze => exact trivial
  | other => exact ⟨rfl, rfl⟩

/-- Amounts of TRX shown alike and with the same drops below one TRX are the same. -/
theorem amount_eq_of_shown (hD : DoubleLaws D) {a b : ℤ} (ha : -2 ^ 63 ≤ a ∧ a < 2 ^ 63)
    (hb : -2 ^ 63 ≤ b ∧ b < 2 ^ 63)
    (hshown : D.printf4 (toTrx D a) = D.printf4 (toTrx D b))
    (hhidden : a.tmod trxDropRate = b.tmod trxDropRate) : a = b := by
  have hbound : ∀ x : ℤ, -2 ^ 63 ≤ x ∧ x < 2 ^ 63 → (x.tdiv trxDropRate).natAbs ≤ 2 ^ 53 := by
    intro x hx
    rw [Int.natAbs_tdiv]
    have habs : x.natAbs ≤ 2 ^ 63 := by omega
    calc x.natAbs / trxDropRate.natAbs ≤ 2 ^ 63 / trxDropRate.natAbs :=
          Nat.div_le_div_right habs
      _ ≤ 2 ^ 53 := by decide
  have hquotient : a.tdiv trxDropRate = b.tdiv trxDropRate :=
    hD.exact _ _ (hbound a ha) (hbound b hb) hshown
  calc a = trxDropRate * a.tdiv trxDropRate + a.tmod trxDropRate :=
        (Int.mul_tdiv_add_tmod a trxDropRate).symm
    _ = trxDropRate * b.tdiv trxDropRate + b.tmod trxDropRate := by rw [hquotient, hhidden]
    _ = b := Int.mul_tdiv_add_tmod b trxDropRate

/-- What the form of transfers shows of an information. -/
def infoScreen (P : Platform) (D : Doubles) (convertUnicode : Bytes → Wide)
    (info : TransactionInfoForm.TransactionInfo D) : Screen :=
  .transaction (statusText info.signature)
    (TransactionInfoForm.amountText D convertUnicode info.amount info.name)
    (addressText P convertUnicode info.toAddress) (addressText P convertUnicode info.fromAddress)

/-- On the form of transfers, what is shown and what is hidden make up the terms. -/
theorem terms_eq_of_transfer (hD : DoubleLaws D) {t : Transaction} {T U : Terms}
    {signature signature' : Bool} (hkind : OfKind (.transaction t) T)
    (hT : ∀ owner toAddress a, T = .transfer owner toAddress a → -2 ^ 63 ≤ a ∧ a < 2 ^ 63)
    (hU : ∀ owner toAddress a, U = .transfer owner toAddress a → -2 ^ 63 ≤ a ∧ a < 2 ^ 63)
    (hscreen : infoScreen P D convertUnicode (infoOf D signature T) =
      infoScreen P D convertUnicode (infoOf D signature' U))
    (hhidden : FirstAgree T U) : T = U := by
  obtain ⟨-, hline, hto, hfrom⟩ := Screen.transaction.inj hscreen
  obtain ⟨hamount, hname⟩ := amountText_inj hD hline
  cases T with
  | transfer owner toAddress a =>
      cases U with
      | transfer owner' toAddress' b =>
          have howner : owner = owner' := addressText_inj hfrom
          have htoAddress : toAddress = toAddress' := addressText_inj hto
          have hab : a = b := amount_eq_of_shown hD (hT _ _ _ rfl) (hU _ _ _ rfl) hamount hhidden
          rw [howner, htoAddress, hab]
      | _ => exact hhidden.elim
  | transferAsset owner toAddress n a =>
      cases U with
      | transferAsset owner' toAddress' m b =>
          have howner : owner = owner' := addressText_inj hfrom
          have htoAddress : toAddress = toAddress' := addressText_inj hto
          have hnm : n = m := by
            rcases hhidden.1 with rfl | ⟨hn, hm⟩
            · rfl
            · have hwide : wideCStr (utf8ToWide convertUnicode n) =
                  wideCStr (utf8ToWide convertUnicode m) := hname
              rw [shownName_of_whole hn, shownName_of_whole hm] at hwide
              exact widen_injective hwide
          have hab : a = b := by
            rcases hhidden.2 with rfl | ⟨ha, hb⟩
            · rfl
            · exact hD.exact a b ha hb hamount
          rw [howner, htoAddress, hnm, hab]
      | _ => exact hhidden.elim
  | vote => exact hkind.elim
  | freeze => exact hkind.elim
  | other type parameter =>
      cases U with
      | other type' parameter' => rw [hhidden.1, hhidden.2]
      | _ => exact hhidden.elim

/-- On the form of frozen balances, what is shown and what is hidden make up the terms. -/
theorem terms_eq_of_freeze {t : Transaction} {T U : Terms} {signature signature' : Bool}
    (hkind : OfKind (.freeze t) T)
    (howner : addressText P convertUnicode (frozenOf signature T).2.1 =
      addressText P convertUnicode (frozenOf signature' U).2.1)
    (hamount : (frozenOf signature T).2.2 = (frozenOf signature' U).2.2)
    (hhidden : FirstAgree T U) : T = U := by
  cases T with
  | freeze owner a =>
      cases U with
      | freeze owner' b =>
          have hown : owner = owner' := addressText_inj howner
          have hab : a = b := hamount
          rw [hown, hab]
      | _ => exact hhidden.elim
  | other type parameter =>
      cases U with
      | other type' parameter' => rw [hhidden.1, hhidden.2]
      | _ => exact hhidden.elim
  | _ => exact hkind.elim

end First

/-! ## Signing -/

section Signing

variable {D : Doubles} {P : Platform} {M : FormMessages} {o : Order} {w : Wallet}
  {now later : ℤ} {key : Secret} {signed : Transaction}

/-- Signing leaves the contracts alone, and there is one. -/
theorem contracts_of_signed {t : Transaction} {k : Secret}
    (h : signTransactionWith P M.toMessages k now later t = (true, signed)) :
    signed.raw_data.contract = t.raw_data.contract ∧ t.raw_data.contract ≠ [] := by
  unfold signTransactionWith at h
  split at h
  · cases h
  · obtain ⟨hne, rfl⟩ := addSignatures_eq_true P M.toMessages h
    exact ⟨rfl, hne⟩

/-- Signing keeps the contracts, of which there is one at least. -/
theorem contracts_of_handled {t : Transaction} {address : Bytes}
    (h : TransactionInfoForm.handleClickEvent P M o w now later address t = some (key, signed)) :
    signed.raw_data.contract = t.raw_data.contract ∧ t.raw_data.contract ≠ [] := by
  unfold TransactionInfoForm.handleClickEvent at h
  split at h
  · cases h
  split at h
  · cases h
  split at h
  next hsign =>
    cases h
    exact contracts_of_signed hsign
  · cases h

/-- A form that signs signs the contracts of its item. -/
theorem contracts_of_form {f : InfoForm} (h : f.sign P D M o w now later = some (key, signed)) :
    signed.raw_data.contract = f.content.raw_data.contract ∧
      f.content.raw_data.contract ≠ [] := by
  cases f with
  | transaction t => exact contracts_of_handled h
  | freeze t => exact contracts_of_handled h
  | vote names t =>
      change VoteInfoForm.onButtonClick P M o w now later t = some (key, signed) at h
      unfold VoteInfoForm.onButtonClick at h
      split at h
      · cases h
      split at h
      next hsign =>
        cases h
        exact contracts_of_signed hsign
      · cases h

/-- A vote that is signed can be read. -/
theorem vote_of_signed {names : StringMap} {t : Transaction}
    (h : InfoForm.sign P D M o w now later (.vote names t) = some (key, signed)) :
    ∃ v, VoteInfoForm.voteContract M t = some v := by
  change VoteInfoForm.onButtonClick P M o w now later t = some (key, signed) at h
  unfold VoteInfoForm.onButtonClick VoteInfoForm.ownerAddress at h
  cases hvote : VoteInfoForm.voteContract M t with
  | some v => exact ⟨v, rfl⟩
  | none =>
      rw [hvote] at h
      cases h

end Signing

/-! ## The two items -/

variable {D : Doubles} {P : Platform} {M : FormMessages} {convertUnicode : Bytes → Wide}

/-- On every form, what is shown and what is hidden make up the terms of the first
contract. -/
theorem terms_eq_of_screen (hD : DoubleLaws D) (hM : AmountsInt64 M) {f g : InfoForm}
    {c d : Contract} {cs ds : List Contract} (hc : f.content.raw_data.contract = c :: cs)
    (hd : g.content.raw_data.contract = d :: ds) (hkind : OfKind f (terms M c))
    (hvote : ∀ names t, f = .vote names t → ∃ v, VoteInfoForm.voteContract M t = some v)
    (hvote' : ∀ names t, g = .vote names t → ∃ v, VoteInfoForm.voteContract M t = some v)
    (hscreen : f.screen P D M convertUnicode = g.screen P D M convertUnicode)
    (hhidden : FirstAgree (terms M c) (terms M d)) : terms M c = terms M d := by
  cases f with
  | transaction t =>
      cases g with
      | transaction u =>
          have hinfo : infoScreen P D convertUnicode (infoOf D (hasSignature t) (terms M c)) =
              infoScreen P D convertUnicode (infoOf D (hasSignature u) (terms M d)) := by
            rw [← parse_transaction (t := t) hc, ← parse_transaction (t := u) hd]
            exact hscreen
          exact terms_eq_of_transfer hD hkind (fun _ _ _ h => amount_of_terms hM h)
            (fun _ _ _ h => amount_of_terms hM h) hinfo hhidden
      | freeze u => cases hscreen
      | vote names u => cases hscreen
  | freeze t =>
      cases g with
      | transaction u => cases hscreen
      | freeze u =>
          obtain ⟨-, hamount, howner⟩ := Screen.freeze.inj hscreen
          have hown : addressText P convertUnicode (frozenOf (hasSignature t) (terms M c)).2.1 =
              addressText P convertUnicode (frozenOf (hasSignature u) (terms M d)).2.1 := by
            rw [← parse_freeze (t := t) hc, ← parse_freeze (t := u) hd]
            exact howner
          have hfrozen : (frozenOf (hasSignature t) (terms M c)).2.2 =
              (frozenOf (hasSignature u) (terms M d)).2.2 := by
            rw [← parse_freeze (t := t) hc, ← parse_freeze (t := u) hd]
            exact freezeAmountText_inj hamount
          exact terms_eq_of_freeze hkind hown hfrozen hhidden
      | vote names u => cases hscreen
  | vote names t =>
      cases g with
      | transaction u => cases hscreen
      | freeze u => cases hscreen
      | vote names' u =>
          obtain ⟨-, hrows⟩ := Screen.vote.inj hscreen
          obtain ⟨v, hv⟩ := hvote names t rfl
          obtain ⟨v', hv'⟩ := hvote' names' u rfl
          obtain ⟨c', cs', hc', hterms⟩ := terms_of_voteContract hv
          obtain ⟨d', ds', hd', hterms'⟩ := terms_of_voteContract hv'
          obtain ⟨rfl, -⟩ := List.cons.inj (hc.symm.trans hc')
          obtain ⟨rfl, -⟩ := List.cons.inj (hd.symm.trans hd')
          rw [hterms, hterms'] at hhidden ⊢
          rw [hv, hv'] at hrows
          rw [hhidden.1, votes_eq hhidden.2 (counts_of_rows hrows)]

/-- **When the screen determines what is signed**: of two items shown alike and signed with
one key the signed contracts are the same exactly when the items agree in what the screen
leaves out. -/
theorem signedAsShown_iff (hD : DoubleLaws D) (hM : AmountsInt64 M) {x y : LoadedItem}
    {f g : InfoForm} {o o' : Order} {w w' : Wallet} {now later now' later' : ℤ} {key : Secret}
    {signed signed' : Transaction} (hx : createShowInfoControl x = some f)
    (_hy : createShowInfoControl y = some g) (hf : f.sign P D M o w now later = some (key, signed))
    (hg : g.sign P D M o' w' now' later' = some (key, signed'))
    (hscreen : f.screen P D M convertUnicode = g.screen P D M convertUnicode) :
    signed.raw_data.contract.map (terms M) = signed'.raw_data.contract.map (terms M) ↔
      HiddenAgree M f.content.raw_data.contract
        g.content.raw_data.contract := by
  obtain ⟨hcontracts, hne⟩ := contracts_of_form hf
  obtain ⟨hcontracts', hne'⟩ := contracts_of_form hg
  obtain ⟨c, cs, hc⟩ := List.exists_cons_of_ne_nil hne
  obtain ⟨d, ds, hd⟩ := List.exists_cons_of_ne_nil hne'
  rw [hcontracts, hcontracts', hc, hd, List.map_cons, List.map_cons]
  constructor
  · intro h
    obtain ⟨hfirst, hrest⟩ := List.cons.inj h
    exact ⟨hfirst ▸ FirstAgree.refl (terms M c), hrest⟩
  · rintro ⟨hfirst, hrest⟩
    have heq : terms M c = terms M d :=
      terms_eq_of_screen hD hM hc hd (kind_of_created hx hc)
        (fun _ _ h => vote_of_signed (h ▸ hf)) (fun _ _ h => vote_of_signed (h ▸ hg)) hscreen hfirst
    rw [heq, hrest]

/-! ## Two transfers -/

/-- The whole numbers obey the laws. -/
theorem doubleLaws_integers : DoubleLaws integers where
  noBlank := fun (a : ℤ) hmem => by
    rcases List.mem_append.mp hmem with hdigits | hzeros
    · unfold signedDecimal at hdigits
      by_cases ha : a < 0
      · rw [if_pos ha] at hdigits
        rcases List.mem_cons.mp hdigits with hsign | hdigits
        · exact absurd hsign (by decide)
        · exact notMem_decimal (by decide) _ hdigits
      · rw [if_neg ha] at hdigits
        exact notMem_decimal (by decide) _ hdigits
    · exact absurd hzeros (by decide)
  exact m n _ _ h := signedDecimal_inj (List.append_cancel_right h)

/-- Amounts in the wire format are numbers of 64 bits. -/
theorem amountsInt64_messages : AmountsInt64 messages := by
  intro p t h
  change unpackTo _ _ p = some t at h
  unfold unpackTo at h
  split at h
  · obtain ⟨f, -, rfl⟩ := Option.map_eq_some_iff.mp h
    exact number_bounds f 3
  · cases h

/-- A wallet with one address. -/
def coldWallet : Wallet :=
  Wallet.run reference [create [97] [2] 1, generate 7, list 60]

/-- That address. -/
def ownerAddress : Bytes := toTronAddress (reference.keyPair (smallSecret 7)).m_address

/-- A transfer from the wallet, with some data beside it. -/
def transferTransaction (drops : ℤ) (data : Bytes) : Transaction where
  raw_data := { contract := [transferOf ownerAddress aliceAddress drops], data }

/-- The file of a transaction, under a path. -/
def fileOf (path : Bytes) (t : Transaction) : Files :=
  AList.insert path (prettyWrite (.dictionary (transactionDetails formats t))) ∅

/-- Signing a transfer in the wallet at a given time. -/
def signTransfer (t : Transaction) (now : ℤ) : Option (Secret × Transaction) :=
  (InfoForm.transaction t).sign reference integers messages Order.held coldWallet now now

/-- The key of the address. -/
theorem lookupPrivate_ownerAddress : Wallet.lookupPrivate Order.held coldWallet
    (addressEncodeBase58Check reference ownerAddress) = smallSecret 7 := by decide +kernel

/-- A transfer from the address is signed with its key. -/
theorem signTransfer_eq {t : Transaction} (now : ℤ)
    (howner : (TransactionInfoForm.parseTransaction integers messages t).fromAddress = ownerAddress)
    (hne : 0 < t.raw_data.contract.length) :
    signTransfer t now = some (smallSecret 7, (addSignatures reference messages.toMessages
      (smallSecret 7) { t with raw_data := { t.raw_data with
        expiration := now + transactionDelayTime, timestamp := now } }).2) := by
  have htext : addressEncodeBase58Check reference ownerAddress ≠ [] := by decide
  have hkey : smallSecret 7 ≠ 0 := by decide
  have hdata : (smallSecret 7).m_data ≠ [] := by decide
  unfold signTransfer InfoForm.sign TransactionInfoForm.handleClickEvent
  simp only [howner]
  rw [if_neg htext, lookupPrivate_ownerAddress, if_neg hkey]
  unfold signTransactionWith
  rw [if_neg hdata]
  unfold addSignatures
  simp only [if_pos hne]

/-- One transfer with two different data is signed twice. -/
theorem signedAsShown_data :
    ((signTransfer (transferTransaction 1000000 [1]) 5).getD (0, {})).2.raw_data.contract.map
        (terms messages) =
      ((signTransfer (transferTransaction 1000000 [2]) 9).getD (0, {})).2.raw_data.contract.map
        (terms messages) := by
  have hf := signTransfer_eq (t := transferTransaction 1000000 [1]) 5 (by decide)
    Nat.zero_lt_one
  have hg := signTransfer_eq (t := transferTransaction 1000000 [2]) 9 (by decide)
    Nat.zero_lt_one
  rw [hf, hg]
  have hscreen : (InfoForm.transaction (transferTransaction 1000000 [1])).screen reference
      integers messages widen = (InfoForm.transaction (transferTransaction 1000000 [2])).screen
        reference integers messages widen := rfl
  refine (signedAsShown_iff doubleLaws_integers amountsInt64_messages
    (x := .transaction (transferTransaction 1000000 [1]))
    (y := .transaction (transferTransaction 1000000 [2])) rfl rfl hf hg hscreen).mpr ⟨?_, rfl⟩
  exact FirstAgree.refl _

/-- One TRX and one and a half TRX look the same, and both are signed. -/
theorem rounded_amount_signed :
    (∀ t ∈ [transferTransaction 1000000 [], transferTransaction 1500000 []],
      loadTransaction formats (fileOf [67] t) [67] = some t ∧
        createShowInfoControl (.transaction t) = some (.transaction t)) ∧
    (InfoForm.transaction (transferTransaction 1000000 [])).screen reference integers messages
        widen =
      (InfoForm.transaction (transferTransaction 1500000 [])).screen reference integers messages
        widen ∧
    (signTransfer (transferTransaction 1000000 []) 5).map
        (fun r => (r.1, r.2.raw_data.contract.map (terms messages))) =
      some (smallSecret 7, [.transfer ownerAddress aliceAddress 1000000]) ∧
    (signTransfer (transferTransaction 1500000 []) 5).map
        (fun r => (r.1, r.2.raw_data.contract.map (terms messages))) =
      some (smallSecret 7, [.transfer ownerAddress aliceAddress 1500000]) := by
  refine ⟨?_, by decide, ?_, ?_⟩
  · intro t ht
    rcases List.mem_pair.mp ht with rfl | rfl
    · exact ⟨by decide +kernel, rfl⟩
    · exact ⟨by decide +kernel, rfl⟩
  · rw [signTransfer_eq (t := transferTransaction 1000000 []) 5 (by decide)
      Nat.zero_lt_one]
    decide
  · rw [signTransfer_eq (t := transferTransaction 1500000 []) 5 (by decide)
      Nat.zero_lt_one]
    decide

end TronWallet.Theorems
