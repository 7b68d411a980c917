import TronWallet.Analysis.Base58

/-!
# The address codec

`AddressEncodeBase58Check` and `AddressDecodeBase58Check` are inverse to each other, up to
the white space a text may have around it.  The checksum is a fixed function of what it
follows, whatever `sha256` is, so the round trips are those of Base58.  In both loops
over big numbers the assertion `carry == 0` holds at each digit.
-/

set_option autoImplicit false

namespace TronWallet.Theorems

open TronWallet.Lib TronWallet.Lib.Radix TronWallet.Model TronWallet.Analysis

variable (P : Platform)

/-- A text without the white space around it. -/
def trimmed (s : Bytes) : Bytes := ((s.dropWhile isspace).reverse.dropWhile isspace).reverse

/-- The assertion of the encoder: no carry is left after any of the bytes. -/
def EncodeCarriesVanish (b : Bytes) : Prop :=
  let rest := b.dropWhile (· = 0)
  ∀ p c q, rest = p ++ c :: q →
    let loop := encodeLoop p (List.replicate (rest.length * 138 / 100 + 1) 0) 0
    (mulAddLoop 58 256 loop.2 loop.1 c.toNat 0).2.1 = 0

/-- The assertion of the decoder: no carry is left after any of the characters that are read,
each of them one of the alphabet. -/
def DecodeCarriesVanish (s : Bytes) : Prop :=
  let psz := ((cStr s).dropWhile isspace).dropWhile (· = 49)
  ∀ p c q, psz = p ++ c :: q → ∀ b256 length,
    decodeLoop p (List.replicate (psz.length * 733 / 1000 + 1) 0) 0 =
      some (b256, length, []) →
    mapBase58.getD c.toNat (-1) ≠ -1 →
      (mulAddLoop 256 58 length b256 (mapBase58.getD c.toNat (-1)).toNat 0).2.1 = 0

/-- No carry is left behind the buffer that is allocated for the digits. -/
theorem encodeCarriesVanish (b : Bytes) : EncodeCarriesVanish b := by
  unfold EncodeCarriesVanish
  dsimp only
  generalize b.dropWhile (· = 0) = rest
  intro p c q hrest
  have hbytes : bytesOf rest = bytesOf p ++ c.toNat :: bytesOf q := by
    rw [hrest]
    simp [bytesOf]
  have hcarry := hornerLoop_carry 58 256 (rest.length * 138 / 100 + 1) (p := bytesOf p)
    (x := c.toNat) (q := bytesOf q) (by decide) (by decide)
    (by rw [← hbytes]; exact bytesOf_lt rest)
    (by rw [← hbytes, bytesOf, List.length_map]; exact encode_fits _)
  simp only [encodeLoop_eq]
  exact hcarry

/-- No carry is left behind the buffer that is allocated for the bytes. -/
theorem decodeCarriesVanish (s : Bytes) : DecodeCarriesVanish s := by
  unfold DecodeCarriesVanish
  dsimp only
  generalize ((cStr s).dropWhile isspace).dropWhile (· = 49) = psz
  intro p c q hpsz b256 length hloop hc
  obtain ⟨t, ht, hchars, -⟩ := chars_of_decodeLoop hloop
  rw [List.append_nil] at ht
  subst ht
  have hend : AtSpace [] := fun c cs heq => by cases heq
  have hrun := decodeLoop_of_chars hchars hend
    (List.replicate (psz.length * 733 / 1000 + 1) 0) 0
  rw [List.append_nil, hloop] at hrun
  obtain ⟨hb, hrun⟩ := Prod.mk.inj (Option.some.inj hrun)
  obtain ⟨hl, -⟩ := Prod.mk.inj hrun
  have hsize : 58 ^ (digitsOf p ++ digitOf c :: []).length ≤
      256 ^ (psz.length * 733 / 1000 + 1) := by
    refine Nat.le_trans (Nat.pow_le_pow_right (by decide) ?_) (decode_fits psz.length)
    rw [hpsz]
    simp [digitsOf]
  have hcarry := hornerLoop_carry 256 58 (psz.length * 733 / 1000 + 1) (by decide) (by decide) (by
    intro d hd
    rcases List.mem_append.mp hd with hd | hd
    · exact digitsOf_lt hchars d hd
    · rw [List.mem_singleton.mp hd]
      exact Base58Char.spec hc |>.2.1) hsize
  rw [hb, hl]
  exact hcarry

/-- The white space around a text of the alphabet is all that trimming takes away. -/
theorem trimmed_eq {sp t sp' : Bytes} (hsp : Spaces sp) (ht : ∀ c ∈ t, Base58Char c)
    (hsp' : Spaces sp') : trimmed (sp ++ t ++ sp') = t := by
  have hnone : ∀ l : Bytes, (∀ c ∈ l, Base58Char c) → l.dropWhile isspace = l := by
    intro l hl
    cases l with
    | nil => rfl
    | cons c l =>
        rw [List.dropWhile_cons_of_neg]
        simp [(hl c List.mem_cons_self).spec.2.2.1]
  have hback : ∀ l : Bytes, (∀ c ∈ l, Base58Char c) →
      ((l ++ sp').reverse.dropWhile isspace).reverse = l := by
    intro l hl
    rw [List.reverse_append, List.dropWhile_append_of_pos fun c hc =>
      hsp' c (List.mem_reverse.mp hc), hnone l.reverse fun c hc => hl c (List.mem_reverse.mp hc),
      List.reverse_reverse]
  unfold trimmed
  rw [List.append_assoc, List.dropWhile_append_of_pos hsp]
  cases t with
  | nil =>
      rw [List.nil_append, hsp'.dropWhile_eq_nil]
      rfl
  | cons c t =>
      rw [List.cons_append, List.dropWhile_cons_of_neg
        (by simp [(ht c List.mem_cons_self).spec.2.2.1]), ← List.cons_append]
      exact hback (c :: t) ht

/-- A text of the alphabet has no zero byte. -/
theorem cStr_encodeBase58 (b : Bytes) : cStr (encodeBase58 b) = encodeBase58 b := by
  unfold cStr
  rw [List.takeWhile_eq_self_iff]
  exact fun c hc => by simpa using (base58Char_encodeBase58 b c hc).spec.2.2.2.1

/-- Decoding undoes encoding, with the checksum. -/
theorem decodeBase58Check_encodeBase58Check (b : Bytes) :
    decodeBase58Check P (encodeBase58Check P b) = (true, b) := by
  have hsum : ((P.sha256 (P.sha256 b).m_data).m_data.take 4).length = 4 := by
    rw [List.length_take, FixedHash.size_eq]
    rfl
  have hlen : (b ++ (P.sha256 (P.sha256 b).m_data).m_data.take 4).length - 4 = b.length := by
    rw [List.length_append, hsum]
    omega
  unfold decodeBase58Check encodeBase58Check
  simp only [cStr_encodeBase58, decodeBase58_encodeBase58, hlen, List.take_left', List.drop_left',
    ne_eq, not_true_eq_false, if_false]
  rw [if_neg (by rw [List.length_append, hsum]; omega)]

/-- Encoding undoes decoding, with the checksum. -/
theorem encodeBase58Check_of_decoded {s b : Bytes} (hs : (0 : UInt8) ∉ s)
    (h : decodeBase58Check P s = (true, b)) : encodeBase58Check P b = trimmed s := by
  have hcStr : cStr s = s := by
    unfold cStr
    rw [List.takeWhile_eq_self_iff]
    intro c hc
    have : c ≠ 0 := fun h0 => hs (h0 ▸ hc)
    simpa using this
  unfold decodeBase58Check at h
  rw [hcStr] at h
  split at h
  · cases h
  next vch hvch =>
    split at h
    · cases h
    · dsimp only at h
      split at h
      · cases h
      next hsum =>
        cases h
        rw [not_not] at hsum
        obtain ⟨sp, t, sp', rfl, hsp, ht, hsp'⟩ := text_of_decodeBase58 hvch
        rw [decodeBase58_eq hsp ht hsp'] at hvch
        obtain rfl := Option.some.inj hvch
        unfold encodeBase58Check
        dsimp only
        rw [hsum, List.take_append_drop, encodeBase58_decoded ht, trimmed_eq hsp ht hsp']

/-- **The address codec is a bijection**: decoding undoes encoding, encoding undoes
decoding up to the white space around a text without zero bytes, and no carry is left
anywhere. -/
theorem addressCodec_bijective :
    (∀ b, addressDecodeBase58Check P (addressEncodeBase58Check P b) = (true, b)) ∧
      (∀ s b, (0 : UInt8) ∉ s → addressDecodeBase58Check P s = (true, b) →
        addressEncodeBase58Check P b = trimmed s) ∧
      (∀ b, EncodeCarriesVanish b) ∧ ∀ s, DecodeCarriesVanish s :=
  ⟨decodeBase58Check_encodeBase58Check P, fun _ _ => encodeBase58Check_of_decoded P,
    encodeCarriesVanish, decodeCarriesVanish⟩

end TronWallet.Theorems
