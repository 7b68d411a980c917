import TronWallet.Reference.SendRuns
import TronWallet.Theorems.AddressCodec

/-!
# The texts that are accepted as addresses

`CheckAddress` accepts a text by its checksum alone, so it accepts the encoding of every
byte string: neither the length of 21 bytes nor the byte `0x41` in front is looked at, here
or anywhere else.  What it accepts is characterised by the codec being a bijection, and the
send form builds its contract to the bytes the text encodes.
-/

set_option autoImplicit false

namespace TronWallet.Theorems

open TronWallet.Lib TronWallet.Lib.Radix TronWallet.Model TronWallet.Analysis
open TronWallet.Reference

variable (P : Platform)

/-! ## Which texts are accepted -/

/-- The white space around a text. -/
theorem exists_spaces_trimmed (s : Bytes) :
    ∃ sp sp', s = sp ++ trimmed s ++ sp' ∧ Spaces sp ∧ Spaces sp' := by
  refine ⟨s.takeWhile isspace,
    ((s.dropWhile isspace).reverse.takeWhile isspace).reverse, ?_, ?_, ?_⟩
  · unfold trimmed
    rw [List.append_assoc, ← List.reverse_append, List.takeWhile_append_dropWhile,
      List.reverse_reverse, List.takeWhile_append_dropWhile]
  · intro c hc
    exact List.mem_takeWhile_imp hc
  · intro c hc
    exact List.mem_takeWhile_imp (List.mem_reverse.mp hc)

/-- A text without a zero byte is not cut short. -/
theorem cStr_of_notMem {s : Bytes} (hs : (0 : UInt8) ∉ s) : cStr s = s := by
  unfold cStr
  rw [List.takeWhile_eq_self_iff]
  intro c hc
  have hne : c ≠ 0 := fun h0 => hs (h0 ▸ hc)
  simpa using hne

/-- The white space around an encoded text does not matter to the decoder. -/
theorem decodeBase58Check_of_trimmed {s p : Bytes} (hs : (0 : UInt8) ∉ s)
    (h : trimmed s = encodeBase58Check P p) : decodeBase58Check P s = (true, p) := by
  obtain ⟨sp, sp', hsplit, hsp, hsp'⟩ := exists_spaces_trimmed s
  have hchars : ∀ c ∈ trimmed s, Base58Char c := by
    rw [h]
    exact base58Char_encodeBase58 _
  have hnil : Spaces [] := fun c hc => by cases hc
  have hbare := decodeBase58_eq hnil hchars hnil
  have hspaced := decodeBase58_eq hsp hchars hsp'
  rw [List.nil_append, List.append_nil] at hbare
  rw [← hsplit, ← hbare, h] at hspaced
  -- both texts go through the same bytes
  rw [← decodeBase58Check_encodeBase58Check P p]
  unfold decodeBase58Check
  rw [cStr_of_notMem hs, hspaced]
  unfold encodeBase58Check
  rw [cStr_encodeBase58]

/-- **What the decoder accepts**: the encodings, with white space around them. -/
theorem decodeBase58Check_eq_true_iff {s p : Bytes} (hs : (0 : UInt8) ∉ s) :
    decodeBase58Check P s = (true, p) ↔ trimmed s = encodeBase58Check P p := by
  constructor
  · intro h
    exact (encodeBase58Check_of_decoded P hs h).symm
  · exact decodeBase58Check_of_trimmed P hs

/-- The empty text is not accepted by the decoder either. -/
theorem checkAddress_eq_true_iff {s p : Bytes} :
    checkAddress P s = (true, p) ↔ addressDecodeBase58Check P s = (true, p) := by
  unfold checkAddress
  by_cases hs : s = []
  · rw [if_pos hs, hs]
    have hempty : decodeBase58 (cStr []) = some [] := by decide
    unfold addressDecodeBase58Check decodeBase58Check
    rw [hempty]
    simp
  · rw [if_neg hs]

/-! ## What is sent to them -/

/-- The bytes a contract is made out to. -/
def recipient : SendForm.SendRequest → Bytes
  | .createTransaction transfer => transfer.to_address
  | .transferAsset transfer => transfer.to_address

/-- The recipient of either kind of transfer is the one it is made for. -/
theorem recipient_createTransaction (fromAddress toAddress type : Bytes) (amount : ℤ) :
    recipient (SendForm.createTransaction fromAddress toAddress type amount) = toAddress := by
  unfold SendForm.createTransaction
  by_cases htype : type = trxName
  · rw [if_pos htype]
    rfl
  · rw [if_neg htype]
    rfl

/-- A transfer that is accepted goes to what the text decodes to. -/
theorem decoded_of_accepted {D : Doubles} {s : SendForm D} {to_text amount_text : Bytes}
    {info : SendInfo D} (h : s.accepted P (.send to_text amount_text) = some info) :
    addressDecodeBase58Check P to_text = (true, info.toAddress) := by
  change (s.getSendInfo P to_text amount_text).1.toOption = some info at h
  unfold SendForm.getSendInfo at h
  by_cases hto : to_text = []
  · rw [if_pos hto] at h
    cases h
  rw [if_neg hto] at h
  cases hdecode : addressDecodeBase58Check P to_text with
  | mk valid toAddress =>
      rw [hdecode] at h
      cases valid with
      | false => cases h
      | true =>
          dsimp only at h
          split at h
          · cases h
          split at h
          · cases h
          split at h
          · cases h
          split at h
          · cases h
          split at h
          · -- no item is selected
            cases h
            rfl
          · split at h
            · cases h
            · cases h
              rfl

/-- The request of the form is made out to what the text decodes to. -/
theorem decoded_of_requested {D : Doubles} {s : SendForm D} {to_text amount_text : Bytes}
    {request : SendForm.SendRequest}
    (h : s.requested P (.send to_text amount_text) = some request) :
    addressDecodeBase58Check P to_text = (true, recipient request) := by
  unfold SendForm.requested at h
  obtain ⟨info, hinfo, rfl⟩ := Option.map_eq_some_iff.mp h
  rw [recipient_createTransaction]
  exact decoded_of_accepted P hinfo

/-! ## The texts and the payloads -/

/-- **The texts accepted as addresses are the encodings of byte strings**, with white space
around them: the output is the byte string that is encoded, an account's address is got back
from its own, and the send form makes its contract out to the byte string. -/
theorem checkAddress_accepts {s : Bytes} (hs : (0 : UInt8) ∉ s) :
    ((checkAddress P s).1 = true ↔ ∃ p, trimmed s = addressEncodeBase58Check P p) ∧
      (∀ p, trimmed s = addressEncodeBase58Check P p → (checkAddress P s).2 = p) ∧
      (∀ a, trimmed s = addressEncodeBase58Check P (toTronAddress a) →
        (checkAddress P s).2 = toTronAddress a ∧ toAddress (checkAddress P s).2 = a) ∧
      ∀ (D : Doubles) (form : SendForm D) (amount_text : Bytes) (request : SendForm.SendRequest),
        form.requested P (.send s amount_text) = some request →
          trimmed s = addressEncodeBase58Check P (recipient request) := by
  have houtput : ∀ p, trimmed s = addressEncodeBase58Check P p → checkAddress P s = (true, p) := by
    intro p hp
    rw [checkAddress_eq_true_iff]
    exact (decodeBase58Check_eq_true_iff P hs).mpr hp
  refine ⟨?_, ?_, ?_, ?_⟩
  · constructor
    · intro hvalid
      have hpair : checkAddress P s = (true, (checkAddress P s).2) := Prod.ext hvalid rfl
      rw [checkAddress_eq_true_iff] at hpair
      exact ⟨_, (decodeBase58Check_eq_true_iff P hs).mp hpair⟩
    · rintro ⟨p, hp⟩
      rw [houtput p hp]
  · intro p hp
    rw [houtput p hp]
  · intro a ha
    rw [houtput _ ha]
    exact ⟨rfl, toAddress_toTronAddress a⟩
  · intro D form amount_text request hrequest
    exact (decodeBase58Check_eq_true_iff P hs).mp (decoded_of_requested P hrequest)

/-- An encoded text has no zero byte. -/
theorem notMem_encodeBase58Check (p : Bytes) : (0 : UInt8) ∉ addressEncodeBase58Check P p :=
  fun h0 => (base58Char_encodeBase58 _ 0 h0).spec.2.2.2.1 rfl

/-- The text of an account's address. -/
theorem checkAddress_accepts_bob :
    ((checkAddress reference bobText).1 = true ↔
        ∃ p, trimmed bobText = addressEncodeBase58Check reference p) ∧
      (∀ p, trimmed bobText = addressEncodeBase58Check reference p →
        (checkAddress reference bobText).2 = p) ∧
      (∀ a, trimmed bobText = addressEncodeBase58Check reference (toTronAddress a) →
        (checkAddress reference bobText).2 = toTronAddress a ∧
          toAddress (checkAddress reference bobText).2 = a) ∧
      ∀ (D : Doubles) (form : SendForm D) (amount_text : Bytes) (request : SendForm.SendRequest),
        form.requested reference (.send bobText amount_text) = some request →
          trimmed bobText = addressEncodeBase58Check reference (recipient request) :=
  checkAddress_accepts reference (notMem_encodeBase58Check reference bobAddress)

/-- A payload that is no address: 21 bytes that do not begin with `0x41`. -/
def stranger : Bytes := List.replicate 21 0

def strangerText : Bytes := addressEncodeBase58Check reference stranger

/-- The encoding of any bytes at all is decoded to them. -/
theorem decode_strangerText :
    addressDecodeBase58Check reference strangerText = (true, stranger) :=
  decodeBase58Check_encodeBase58Check reference stranger

/-- The text of such a payload is accepted, and a transfer to it is asked for. -/
theorem foreign_payload_accepted :
    (0 : UInt8) ∉ strangerText ∧
      ¬ ((checkAddress reference strangerText).1 = true ↔
        ∃ a, trimmed strangerText = addressEncodeBase58Check reference (toTronAddress a)) ∧
      ({ address_ := aliceAddress } : SendForm integers).requested reference
          (.send strangerText [49]) =
        some (.transferAsset ⟨[], aliceAddress, stranger, 1000000⟩) := by
  refine ⟨notMem_encodeBase58Check reference stranger, ?_, ?_⟩
  · intro hiff
    have hcheck : checkAddress reference strangerText = (true, stranger) := by
      rw [checkAddress_eq_true_iff]
      exact decode_strangerText
    obtain ⟨a, ha⟩ := hiff.mp (by rw [hcheck])
    -- the text decodes to one payload only
    have hdecode := decodeBase58Check_of_trimmed reference
      (notMem_encodeBase58Check reference stranger) ha
    have hpayload : stranger = toTronAddress a :=
      congrArg Prod.snd (decode_strangerText.symm.trans hdecode)
    have hfirst : (0 : UInt8) = 0x41 := congrArg (fun b => b.headD 0) hpayload
    exact absurd hfirst (by decide)
  · have hto : strangerText ≠ [] := by
      intro hnil
      have hdecode := decode_strangerText
      rw [hnil] at hdecode
      exact absurd (congrArg Prod.fst hdecode) (by decide)
    unfold SendForm.requested SendForm.accepted SendForm.getSendInfo
    dsimp only
    rw [if_neg hto, decode_strangerText]
    decide

end TronWallet.Theorems
