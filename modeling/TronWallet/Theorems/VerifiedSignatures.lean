import TronWallet.Model.Recovery
import TronWallet.Theorems.SignedAsShown

/-!
# Signatures that verify

A signature counts when the key recovered from it, over the hash of the raw data the
transaction now holds, has the address of the signer.  `SignTransaction` tests that the
secret is not empty, which a secret of 32 bytes never is; so a key that is not there, the
zero secret, is signed with as well, and what `dev::sign` returns for it is appended as a
signature.  It also changes the raw data before it knows whether there is a contract, and
it appends to the signatures that are there.

Signing once and signing again are both read off one description of a call
(`signTransactionWith_eq`), the second by following the number of signatures through the
calls (`signAll_spec`).
-/

set_option autoImplicit false

namespace TronWallet.Theorems

open TronWallet.Lib TronWallet.Model TronWallet.Analysis TronWallet.Reference

variable {P : Platform} {R : Recovery} {M : Messages}

/-! ## What is relied on -/

/-- What is relied on of libsecp256k1: signing fails for the secrets that have no public key,
zero among them; a signature gives back the public key, which is not zero; and the zero
signature gives back none. -/
structure RecoveryLaws (P : Platform) (R : Recovery) : Prop where
  sign_isSome : ∀ key hash, (P.ecdsaSign key hash).isSome ↔ (P.ecPubkeyCreate key).isSome
  recover_sign : ∀ key hash sig pub, P.ecdsaSign key hash = some sig →
    P.ecPubkeyCreate key = some pub → R.recover sig hash = pub
  pubkey_ne_zero : ∀ key pub, P.ecPubkeyCreate key = some pub → pub ≠ 0
  zero_invalid : P.ecPubkeyCreate 0 = none
  recover_zero : ∀ hash, R.recover 0 hash = 0

/-! ## The properties -/

/-- A secret that has a public key. -/
def ValidSecret (P : Platform) (key : Secret) : Prop := (P.ecPubkeyCreate key).isSome

instance (key : Secret) : Decidable (ValidSecret P key) := by
  unfold ValidSecret
  infer_instance

/-- A signature recovers to an address over the raw data. -/
def RecoversTo (P : Platform) (R : Recovery) (M : Messages) (address : Address) (raw : RawData)
    (signature : Bytes) : Prop :=
  ∃ sig : H520, sig.m_data = signature ∧
    R.recover sig (P.sha256 (M.serializeRaw raw)) ≠ 0 ∧
    P.toAddress (R.recover sig (P.sha256 (M.serializeRaw raw))) = address

/-- One signature for each contract, and each recovers to an address of a kind. -/
def SignedBy (P : Platform) (R : Recovery) (M : Messages) (Owner : Address → Prop)
    (t : Transaction) : Prop :=
  t.signature.length = t.raw_data.contract.length ∧
    ∀ signature ∈ t.signature, ∃ address, Owner address ∧
      RecoversTo P R M address t.raw_data signature

/-- The address a text encodes. -/
def Encodes (P : Platform) (text : Bytes) (address : Address) : Prop :=
  addressDecodeBase58Check P text = (true, toTronAddress address)

/-- What a call that returns true must have done, and one that returns false must not. -/
def SuccessVerifies (P : Platform) (R : Recovery) (M : Messages) (text : Bytes)
    (t : Transaction) : Bool × Transaction → Prop
  | (true, signed) => SignedBy P R M (Encodes P text) signed
  | (false, signed) => signed = t

/-- The transaction has a contract and the secret is valid, or it has none and signing would
set the times it has. -/
def VerifiesWhen (P : Platform) (key : Secret) (now later : ℤ) (t : Transaction) : Prop :=
  (t.raw_data.contract ≠ [] ∧ ValidSecret P key) ∨
    (t.raw_data.contract = [] ∧ t.raw_data.expiration = now + transactionDelayTime ∧
      t.raw_data.timestamp = later)

/-! ## One call -/

/-- A transaction with the times of a call. -/
def stamped (now later : ℤ) (t : Transaction) : Transaction :=
  { t with raw_data :=
    { t.raw_data with expiration := now + transactionDelayTime, timestamp := later } }

/-- A secret is never empty, so every key is signed with. -/
theorem signTransactionWith_eq (key : Secret) (now later : ℤ) (t : Transaction) :
    signTransactionWith P M key now later t = addSignatures P M key (stamped now later t) :=
  if_neg (m_data_ne_nil key)

/-- With a contract the call returns true. -/
theorem signTransactionWith_of_contract (key : Secret) (now later : ℤ) {t : Transaction}
    (h : t.raw_data.contract ≠ []) :
    signTransactionWith P M key now later t = (true, { stamped now later t with
      signature := t.signature ++ List.replicate t.raw_data.contract.length
        (signatureOf P M key (stamped now later t).raw_data) }) := by
  rw [signTransactionWith_eq]
  exact if_pos (List.length_pos_of_ne_nil h)

/-- Without one it returns false, and the times are changed. -/
theorem signTransactionWith_of_nil (key : Secret) (now later : ℤ) {t : Transaction}
    (h : t.raw_data.contract = []) :
    signTransactionWith P M key now later t = (false, stamped now later t) := by
  rw [signTransactionWith_eq]
  refine if_neg ?_
  change ¬0 < t.raw_data.contract.length
  rw [h]
  exact Nat.lt_irrefl 0

section Signature

variable (hlaws : RecoveryLaws P R)
include hlaws

/-- The signature under a valid secret recovers to its address. -/
theorem recoversTo_signatureOf {key : Secret} (hvalid : ValidSecret P key) (raw : RawData) :
    RecoversTo P R M (P.keyPair key).m_address raw (signatureOf P M key raw) := by
  obtain ⟨pub, hpub⟩ := Option.isSome_iff_exists.mp hvalid
  obtain ⟨sig, hsig⟩ := Option.isSome_iff_exists.mp
    ((hlaws.sign_isSome key (P.sha256 (M.serializeRaw raw))).mpr hvalid)
  have hne : pub ≠ 0 := hlaws.pubkey_ne_zero key pub hpub
  have hpublic : P.toPublic key = pub := by
    unfold Platform.toPublic
    rw [hpub, Option.getD_some]
  have hsign : signatureOf P M key raw = sig.m_data := by
    unfold signatureOf Platform.sign
    rw [hsig, Option.getD_some]
  have haddress : (P.keyPair key).m_address = P.toAddress pub := by
    unfold Platform.keyPair
    rw [hpublic]
    exact if_pos hne
  refine ⟨sig, hsign.symm, ?_⟩
  rw [hlaws.recover_sign key _ sig pub hsig hpub, haddress]
  exact ⟨hne, rfl⟩

/-- The signature under another secret recovers to no address. -/
theorem not_recoversTo_signatureOf {key : Secret} (hinvalid : ¬ValidSecret P key)
    (address : Address) (raw : RawData) :
    ¬RecoversTo P R M address raw (signatureOf P M key raw) := by
  have hnone : P.ecdsaSign key (P.sha256 (M.serializeRaw raw)) = none := by
    rw [← Option.not_isSome_iff_eq_none, hlaws.sign_isSome]
    exact hinvalid
  have hsign : signatureOf P M key raw = (0 : H520).m_data := by
    unfold signatureOf Platform.sign
    rw [hnone, Option.getD_none]
  rintro ⟨sig, hsig, hne, -⟩
  have hzero : sig = 0 := FixedHash.ext (hsig.trans hsign)
  rw [hzero] at hne
  exact hne (hlaws.recover_zero _)

/-- **Exactly when the answer of a call can be trusted**: when there is a contract and the
key is valid, or nothing was to be changed. -/
theorem successVerifies_iff {o : Order} {w : Wallet} {text : Bytes} {now later : ℤ}
    {t : Transaction} (hmatch : Wallet.lookupPrivate o w text ≠ 0 → addressEncodeBase58Check P
      (toTronAddress (P.keyPair (Wallet.lookupPrivate o w text)).m_address) = text)
    (hunsigned : t.signature = []) :
    SuccessVerifies P R M text t
        (signTransactionWith P M (Wallet.lookupPrivate o w text) now later t) ↔
      VerifiesWhen P (Wallet.lookupPrivate o w text) now later t := by
  generalize Wallet.lookupPrivate o w text = key at hmatch ⊢
  unfold VerifiesWhen
  by_cases hcontract : t.raw_data.contract = []
  · rw [signTransactionWith_of_nil key now later hcontract]
    change stamped now later t = t ↔ _
    constructor
    · intro heq
      refine Or.inr ⟨hcontract, ?_, ?_⟩
      · rw [← heq]
        rfl
      · rw [← heq]
        rfl
    · rintro (⟨hne, -⟩ | ⟨-, hexpiration, htimestamp⟩)
      · exact absurd hcontract hne
      · unfold stamped
        rw [← hexpiration, ← htimestamp]
  · rw [signTransactionWith_of_contract key now later hcontract, hunsigned, List.nil_append]
    have hlength : 0 < t.raw_data.contract.length := List.length_pos_of_ne_nil hcontract
    constructor
    · rintro ⟨-, hall⟩
      obtain ⟨address, -, hrecovers⟩ := hall _ (List.mem_replicate.mpr ⟨hlength.ne', rfl⟩)
      refine Or.inl ⟨hcontract, ?_⟩
      by_contra hinvalid
      exact not_recoversTo_signatureOf hlaws hinvalid address _ hrecovers
    · rintro (⟨-, hvalid⟩ | ⟨hnil, -⟩)
      · refine ⟨List.length_replicate, fun signature hmem => ?_⟩
        obtain ⟨-, rfl⟩ := List.mem_replicate.mp hmem
        have hkey : key ≠ 0 := by
          rintro rfl
          unfold ValidSecret at hvalid
          rw [hlaws.zero_invalid] at hvalid
          cases hvalid
        refine ⟨(P.keyPair key).m_address, ?_, recoversTo_signatureOf hlaws hvalid _⟩
        unfold Encodes
        rw [← hmatch hkey]
        exact decodeBase58Check_encodeBase58Check P _
      · exact absurd hnil hcontract

end Signature

/-! ## Call after call -/

/-- After calls that return true the contracts are those there were, and the signatures are
as many more as there are contracts for each call. -/
theorem signAll_spec {calls : List SignCall} {t signed : Transaction}
    (h : signAll P M t calls = some signed) :
    signed.raw_data.contract = t.raw_data.contract ∧
      signed.signature.length =
        t.signature.length + calls.length * t.raw_data.contract.length ∧
      (calls ≠ [] → t.raw_data.contract ≠ []) := by
  induction calls generalizing t with
  | nil =>
      obtain rfl := Option.some.inj h
      exact ⟨rfl, by simp, fun hne => absurd rfl hne⟩
  | cons call rest ih =>
      unfold signAll at h
      by_cases hcontract : t.raw_data.contract = []
      · rw [signTransactionWith_of_nil _ _ _ hcontract] at h
        cases h
      · rw [signTransactionWith_of_contract _ _ _ hcontract] at h
        obtain ⟨hkept, hlength, -⟩ := ih h
        refine ⟨hkept, ?_, fun _ => hcontract⟩
        rw [hlength, List.length_append, List.length_replicate, List.length_cons, Nat.add_mul]
        change _ + rest.length * t.raw_data.contract.length = _
        omega

/-- The calls before the last, and the last. -/
theorem signAll_concat {before : List SignCall} {call : SignCall} {t signed : Transaction}
    (h : signAll P M t (before ++ [call]) = some signed) :
    ∃ loaded, signAll P M t before = some loaded ∧
      signTransactionWith P M call.key call.now call.later loaded = (true, signed) := by
  induction before generalizing t with
  | nil =>
      rw [List.nil_append] at h
      unfold signAll at h
      refine ⟨t, rfl, ?_⟩
      split at h
      · rename_i heq
        rw [heq, Option.some.inj h]
      · cases h
  | cons first before ih =>
      rw [List.cons_append] at h
      unfold signAll at h ⊢
      split at h
      · exact ih h
      · cases h

/-- **Exactly when signing leaves no other signature**: when the transaction had none and is
signed once. -/
theorem signedBy_last_iff (hlaws : RecoveryLaws P R) {t signed : Transaction}
    {before : List SignCall} {last : SignCall}
    (hvalid : ∀ call ∈ before ++ [last], ValidSecret P call.key)
    (h : signAll P M t (before ++ [last]) = some signed) :
    SignedBy P R M (· = (P.keyPair last.key).m_address) signed ↔
      t.signature = [] ∧ before = [] := by
  obtain ⟨hkept, hlength, hne⟩ := signAll_spec h
  have hcontract : t.raw_data.contract ≠ [] := hne (by simp)
  have hpos : 0 < t.raw_data.contract.length := List.length_pos_of_ne_nil hcontract
  rw [List.length_append, List.length_singleton, Nat.add_mul, Nat.one_mul] at hlength
  constructor
  · rintro ⟨hone, -⟩
    rw [hkept] at hone
    have hbefore : before.length * t.raw_data.contract.length = 0 := by omega
    have hsignature : t.signature.length = 0 := by omega
    rcases Nat.mul_eq_zero.mp hbefore with hnil | hzero
    · exact ⟨List.eq_nil_of_length_eq_zero hsignature, List.eq_nil_of_length_eq_zero hnil⟩
    · exact absurd hzero hpos.ne'
  · rintro ⟨hunsigned, rfl⟩
    obtain ⟨loaded, hloaded, hlast⟩ := signAll_concat h
    obtain rfl := Option.some.inj hloaded
    rw [signTransactionWith_of_contract _ _ _ hcontract, hunsigned, List.nil_append] at hlast
    obtain ⟨-, rfl⟩ := Prod.mk.inj hlast
    refine ⟨List.length_replicate, fun signature hmem => ?_⟩
    obtain ⟨-, rfl⟩ := List.mem_replicate.mp hmem
    exact ⟨_, rfl, recoversTo_signatureOf hlaws (hvalid last (by simp)) _⟩

/-! ## Given inputs -/

/-- The recovery that belongs to the signatures of the platform: the secret is read from the
signature if it signs the message. -/
def referenceRecovery : Recovery where
  ecdsaRecover sig message :=
    if sig.m_data.drop 32 = message.m_data ++ [0] then
      pubkeyCreate (FixedHash.ofBytes (sig.m_data.take 32))
    else none

/-- It obeys the laws. -/
theorem referenceRecovery_laws : RecoveryLaws reference referenceRecovery where
  sign_isSome key hash := by
    change (ecdsaSign key hash).isSome ↔ (pubkeyCreate key).isSome
    unfold ecdsaSign pubkeyCreate
    split <;> simp
  recover_sign key hash sig pub hsig hpub := by
    change ecdsaSign key hash = some sig at hsig
    change pubkeyCreate key = some pub at hpub
    have hkey : key ≠ 0 := by
      rintro rfl
      cases hpub
    unfold ecdsaSign at hsig
    rw [if_neg hkey] at hsig
    obtain rfl := Option.some.inj hsig
    have htake : (key.m_data ++ hash.m_data ++ [0]).take 32 = key.m_data := by
      rw [List.append_assoc, List.take_left' key.size_eq]
    have hdrop : (key.m_data ++ hash.m_data ++ [0]).drop 32 = hash.m_data ++ [0] := by
      rw [List.append_assoc, List.drop_left' key.size_eq]
    have hlast : FixedHash.byte (⟨key.m_data ++ hash.m_data ++ [0], by
        simp [key.size_eq, hash.size_eq]⟩ : H520) 64 = 0 := by
      unfold FixedHash.byte
      rw [List.getD_eq_getElem?_getD,
        List.getElem?_append_right (by simp [key.size_eq, hash.size_eq])]
      simp [key.size_eq, hash.size_eq]
    unfold Recovery.recover referenceRecovery
    rw [hlast, if_neg (by decide)]
    simp only [htake, hdrop, if_true, FixedHash.ofBytes_m_data, hpub, Option.getD_some]
  pubkey_ne_zero key pub hpub := by
    change pubkeyCreate key = some pub at hpub
    unfold pubkeyCreate at hpub
    split at hpub
    · cases hpub
    · rename_i hkey
      obtain rfl := Option.some.inj hpub
      intro hzero
      refine hkey (FixedHash.ext ?_)
      have hdata := congrArg (fun h : H512 => h.m_data.take 32) hzero
      simp only [List.take_left' key.size_eq] at hdata
      exact hdata
  zero_invalid := rfl
  recover_zero hash := by
    unfold Recovery.recover referenceRecovery
    dsimp only
    split
    · rfl
    · split <;> rfl

/-- The address of the wallet, as text. -/
def ownerText : Bytes := addressEncodeBase58Check reference ownerAddress

/-- A transfer from the address is signed with its key, and the signature verifies. -/
theorem successVerifies_owner : SuccessVerifies reference referenceRecovery messages.toMessages
    ownerText (transferTransaction 1000000 []) (signTransactionWith reference messages.toMessages
      (Wallet.lookupPrivate Order.held coldWallet ownerText) 5 5
      (transferTransaction 1000000 [])) := by
  have hkey : Wallet.lookupPrivate Order.held coldWallet ownerText = smallSecret 7 :=
    lookupPrivate_ownerAddress
  have hmatch : Wallet.lookupPrivate Order.held coldWallet ownerText ≠ 0 →
      addressEncodeBase58Check reference (toTronAddress (reference.keyPair
        (Wallet.lookupPrivate Order.held coldWallet ownerText)).m_address) = ownerText := by
    intro _
    rw [hkey]
    exact Eq.refl ownerText
  have hunsigned : (transferTransaction 1000000 []).signature = [] := Eq.refl []
  have hvalid : ValidSecret reference (Wallet.lookupPrivate Order.held coldWallet ownerText) := by
    rw [hkey]
    decide
  rw [successVerifies_iff referenceRecovery_laws hmatch hunsigned]
  exact Or.inl ⟨List.cons_ne_nil _ _, hvalid⟩

/-- A transaction is signed for an address the wallet has no key of: true is returned, and the
signature does not verify. -/
theorem unknown_owner_signed :
    (signTransactionWith reference messages.toMessages
      (Wallet.lookupPrivate Order.held coldWallet aliceText) 5 5
      (transferTransaction 1000000 [])).1 = true ∧
    ¬SuccessVerifies reference referenceRecovery messages.toMessages aliceText
      (transferTransaction 1000000 []) (signTransactionWith reference messages.toMessages
        (Wallet.lookupPrivate Order.held coldWallet aliceText) 5 5
        (transferTransaction 1000000 [])) := by
  have hkey : Wallet.lookupPrivate Order.held coldWallet aliceText = 0 := by decide +kernel
  have hcontract : (transferTransaction 1000000 []).raw_data.contract ≠ [] :=
    List.cons_ne_nil _ _
  rw [hkey, signTransactionWith_of_contract _ _ _ hcontract]
  refine ⟨rfl, ?_⟩
  rintro ⟨-, hall⟩
  obtain ⟨address, -, hrecovers⟩ := hall _ List.mem_cons_self
  exact not_recoversTo_signatureOf referenceRecovery_laws (by decide) address _ hrecovers

/-- The calls of the wallet's key at two times. -/
def callAt (now : ℤ) : SignCall := ⟨smallSecret 7, now, now⟩

/-- A transfer after some calls. -/
def signedAt (times : List ℤ) : Transaction :=
  (signAll reference messages.toMessages (transferTransaction 1000000 [])
    (times.map callAt)).getD {}

/-- A transfer is signed once. -/
theorem signedBy_once : SignedBy reference referenceRecovery messages.toMessages
    (· = (reference.keyPair (smallSecret 7)).m_address) (signedAt [5]) := by
  have hsigned : signAll reference messages.toMessages (transferTransaction 1000000 [])
      ([] ++ [callAt 5]) = some (signedAt [5]) := rfl
  refine (signedBy_last_iff referenceRecovery_laws ?_ hsigned).mpr ⟨rfl, rfl⟩
  intro call hcall
  obtain rfl := List.mem_singleton.mp hcall
  decide

/-- A file with a signed transfer is loaded and signed: it has two signatures and one
contract. -/
theorem signed_again :
    loadTransaction formats (fileOf [67] (signedAt [5])) [67] = some (signedAt [5]) ∧
    signAll reference messages.toMessages (signedAt [5]) [callAt 9] = some (signedAt [5, 9]) ∧
    ¬SignedBy reference referenceRecovery messages.toMessages
      (· = (reference.keyPair (smallSecret 7)).m_address) (signedAt [5, 9]) := by
  refine ⟨by decide +kernel, by decide +kernel, ?_⟩
  rintro ⟨hlength, -⟩
  have htwo : (signedAt [5, 9]).signature.length = 2 := by decide
  have hone : (signedAt [5, 9]).raw_data.contract.length = 1 := by decide
  omega

end TronWallet.Theorems
