import TronWallet.Analysis.Keccak
import Mathlib.Data.List.GetD

/-!
# Keccak-256 is Keccak-256

The addresses of the wallet and the authentication codes of its key files are Keccak
hashes.  The implementation takes its text in place, block by block, adds the two marks of
the padding to the state and not to the text, and lets the last block follow them; the
rounds it goes through are those of the permutation in place.  What it computes is the
sponge over the permutation as it is meant, for every text, every rate below the size of
the state and every length of the answer.
-/

set_option autoImplicit false

namespace TronWallet.Theorems

open TronWallet.Lib TronWallet.Lib.Blocks TronWallet.Lib.Sponge TronWallet.Model
  TronWallet.Analysis.Keccak
open TronWallet.Lib.KeccakF (onBytes keccak length_onBytes)
open TronWallet.Model.Keccak (xorin foldIn foldOut keccakf Plen HashFailure)

namespace KeccakHash

variable {rate : ℕ}

/-- The bytes of a beginning are those of the text. -/
theorem getD_take (b : Bytes) (n i : ℕ) :
    (b.take n).getD i 0 = if i < n then b.getD i 0 else 0 := by
  split_ifs with h <;> simp [h]

/-- The loop that mixes in bytes is the mixing of the sponge. -/
theorem xorin_eq_mixInto (a text : Bytes) (len : ℕ) :
    xorin a text len = mixInto a (text.take len) := by
  apply List.ext_getElem
  · simp [xorin]
  · intro i _ _
    simp only [xorin, mixInto, List.getElem_mapIdx, getD_take]
    split_ifs <;> simp

/-! ## The blocks of the text -/

/-- Absorbing keeps the 200 bytes of the state. -/
theorem length_absorbed {a : Bytes} (ha : a.length = 200) (text : Bytes) (hrate : 0 < rate) :
    (absorbed onBytes rate a text).length = 200 := by
  induction text using block_induction hrate generalizing a with
  | short m h => simpa [absorbed, h] using ha
  | block b m hb ih =>
    rw [absorbed, absorb_block _ hrate hb]
    exact ih (length_onBytes _)

/-- The loop takes in the whole blocks and leaves the rest. -/
theorem foldIn_eq (hrate : 0 < rate) {a text : Bytes} (ha : a.length = 200) {rounds : ℕ}
    (hrounds : text.length ≤ rounds) :
    foldIn rate rounds a text = .ok (absorbed onBytes rate a text, rest rate text) := by
  induction rounds generalizing a text with
  | zero =>
    have hlt : text.length < rate := by omega
    rw [foldIn, if_neg (by omega)]
    simp [absorbed, hlt]
  | succ rounds ih =>
    rw [foldIn]
    by_cases hle : rate ≤ text.length
    · have hblock : (text.take rate).length = rate := by simpa using hle
      have hsplit := List.take_append_drop rate text
      have hperm : keccakf (xorin a text rate) = onBytes (mixInto a (text.take rate)) := by
        rw [xorin_eq_mixInto]
        exact keccakf_eq_onBytes (by simpa using ha)
      rw [if_pos hle, ih (by rw [hperm]; exact length_onBytes _) (by simp; omega), hperm]
      conv_rhs => rw [← hsplit]
      rw [absorbed, absorbed, absorb_block _ hrate hblock, rest_append hrate hblock]
    · simp [if_neg hle, absorbed, Nat.lt_of_not_le hle]

/-! ## The last block -/

/-- The marks added to the state and the rest of the text after them are the last block. -/
theorem xorin_marks {a text : Bytes} (htext : text.length < rate) (delim : UInt8) :
    xorin ((a.modify text.length (· ^^^ delim)).modify (rate - 1) (· ^^^ 0x80)) text
        text.length =
      mixInto a (text ++ frame delim 0x80 (rate - text.length)) := by
  apply List.ext_getElem
  · simp [xorin]
  · intro i _ _
    simp only [xorin, mixInto, List.getElem_mapIdx, List.getElem_modify]
    rcases Nat.lt_or_ge i text.length with hi | hi
    · -- In front of the marks there is the rest of the text.
      rw [List.getD_append _ _ _ _ hi, if_pos hi, if_neg (show rate - 1 ≠ i by omega),
        if_neg (show text.length ≠ i by omega)]
    · rw [List.getD_append_right _ _ _ _ hi, if_neg (Nat.not_lt.mpr hi)]
      rcases Nat.lt_or_ge i rate with hin | hout
      · have hfirst : text.length = i ↔ i - text.length = 0 := by omega
        have hlast : rate - 1 = i ↔ i - text.length + 1 = rate - text.length := by omega
        rw [getD_frame (by omega)]
        simp only [hfirst, hlast]
        split_ifs <;> simp [UInt8.xor_assoc]
      · -- Behind the block nothing is added.
        rw [List.getD_eq_default _ _ (by simp; omega), if_neg (show rate - 1 ≠ i by omega),
          if_neg (show text.length ≠ i by omega), UInt8.xor_zero]

/-! ## The answer -/

/-- The loop that gives out whole blocks, and what is copied behind it, are what the sponge
squeezes out. -/
theorem foldOut_eq (hrate : 0 < rate) (hlt : rate < 200) {a : Bytes} (ha : a.length = 200)
    (out : Bytes) {outlen rounds : ℕ} (hrounds : outlen ≤ rounds) :
    ∃ a' o k, foldOut rate rounds a out outlen = .ok (a', out ++ o, k) ∧
      o ++ a'.take k = squeezed onBytes rate a outlen := by
  induction rounds generalizing a out outlen with
  | zero =>
    refine ⟨a, [], outlen, ?_, ?_⟩
    · rw [foldOut, if_neg (by omega), List.append_nil]
    · rw [squeezed_of_lt (by omega) (by omega), List.nil_append]
  | succ rounds ih =>
    rw [foldOut]
    by_cases hle : rate ≤ outlen
    · have hperm : keccakf a = onBytes a := keccakf_eq_onBytes ha
      obtain ⟨a', o, k, hfold, ho⟩ := ih (length_onBytes a) (out ++ a.take rate)
        (show outlen - rate ≤ rounds by omega)
      refine ⟨a', a.take rate ++ o, k, ?_, ?_⟩
      · rw [if_pos hle, hperm, hfold, List.append_assoc]
      · rw [squeezed_of_le hrate hle (by omega), ← ho, List.append_assoc]
    · refine ⟨a, [], outlen, ?_, ?_⟩
      · rw [if_neg hle, List.append_nil]
      · rw [squeezed_of_lt (by omega) (by omega), List.nil_append]

/-- The hash function is the sponge, whatever is asked of it. -/
theorem hash_eq (hrate : 0 < rate) (hlt : rate < Plen) (outlen : ℕ) (input : Bytes)
    (delim : UInt8) :
    Model.Keccak.hash outlen input rate delim = .ok (keccak rate delim input outlen) := by
  have hstate : (List.replicate Plen (0 : UInt8)).length = 200 := List.length_replicate
  have hshort := length_rest_lt hrate input
  have hlast := @keccakf_eq_onBytes (mixInto
    (absorbed onBytes rate (List.replicate Plen 0) input)
      (rest rate input ++ frame delim 0x80 (rate - (rest rate input).length)))
    (by simpa using length_absorbed hstate input hrate)
  obtain ⟨a', o, k, hfold, ho⟩ := foldOut_eq hrate hlt (length_onBytes (mixInto
    (absorbed onBytes rate (List.replicate Plen 0) input)
      (rest rate input ++ frame delim 0x80 (rate - (rest rate input).length)))) []
    (le_refl outlen)
  rw [Model.Keccak.hash, if_neg (by omega), foldIn_eq hrate hstate (le_refl _)]
  simp only [bind, Except.bind, xorin_marks hshort, hlast, hfold]
  rw [List.nil_append, ho, keccak, sponge, absorbed_padded hrate, length_rest]
  rfl

/-- An output no longer than the digest is that of Keccak with its rate. -/
theorem sha3_of_le {bits outlen : ℕ} (hbits : bits ∈ [224, 256, 384, 512])
    (houtlen : outlen ≤ bits / 8) (input : Bytes) :
    Model.Keccak.sha3 bits outlen input = .ok (keccak (200 - bits / 4) 0x01 input outlen) := by
  have hrates : ∀ bits ∈ [224, 256, 384, 512],
      0 < 200 - bits / 4 ∧ 200 - bits / 4 < Plen := by decide
  rw [Model.Keccak.sha3, if_neg (by omega), hash_eq (hrates bits hbits).1 (hrates bits hbits).2]

end KeccakHash

open KeccakHash

/-- **The hash functions are the sponges they are named after**, and return -1 exactly when
more is asked of them than there is; `sha3` is the one of 32 bytes. -/
theorem hashes_eq_keccak (outlen : ℕ) (input : Bytes) :
    (∀ bits ∈ [128, 256], Model.Keccak.shake bits outlen input =
      .ok (keccak (200 - bits / 4) 0x1f input outlen)) ∧
    (∀ bits ∈ [224, 256, 384, 512], Model.Keccak.sha3 bits outlen input =
      if bits / 8 < outlen then .error .minusOne
      else .ok (keccak (200 - bits / 4) 0x01 input outlen)) ∧
    (sha3 input).m_data = keccak 136 0x01 input 32 := by
  refine ⟨fun bits hbits => ?_, fun bits hbits => ?_, ?_⟩
  · have hrates : ∀ bits ∈ [128, 256], 0 < 200 - bits / 4 ∧ 200 - bits / 4 < Plen := by decide
    rw [Model.Keccak.shake, hash_eq (hrates bits hbits).1 (hrates bits hbits).2]
  · split_ifs with h
    · rw [Model.Keccak.sha3, if_pos h]
    · exact sha3_of_le hbits (by omega) input
  · have hlength : (keccak 136 0x01 input 32).length = 32 := by
      simp [keccak, sponge, squeezed]
    have hsha3 := sha3_of_le (show 256 ∈ [224, 256, 384, 512] by decide)
      (show 32 ≤ 256 / 8 by decide) input
    rw [sha3, hsha3]
    simp [FixedHash.ofBytes, hlength]

end TronWallet.Theorems
