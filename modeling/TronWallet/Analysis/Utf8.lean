import TronWallet.Lib.StreamCode
import TronWallet.Model.UtfConversions

/-!
# UTF-8 as a code

The macros for UTF-8 are a `StreamCode` for characters: what `CBU8_APPEND_UNSAFE` writes
`CBU8_NEXT` reads, in front of any text, and `CBU8_NEXT` reads nothing else.  The case split
is on the number of bytes of a character, the facts about it are arithmetic of base 64.
-/

set_option autoImplicit false

namespace TronWallet.Analysis

open TronWallet.Lib TronWallet.Model

/-! ## What is read of the bytes of one character -/

/-- The value of a byte. -/
theorem toNat_utf8Byte {n : ℕ} (h : n < 256) : (UInt8.ofNat n).toNat = n := by
  rw [UInt8.toNat_ofNat', Nat.mod_eq_of_lt h]

/-- A character of one byte is read. -/
theorem cbu8Next_one {c : ℕ} (h : c < 0x80) (rest : Bytes) :
    cbu8Next (UInt8.ofNat c :: rest) = (some c, rest) := by
  rw [cbu8Next, toNat_utf8Byte (by omega), if_pos h]

/-- A lead byte hands over to the body of the macro. -/
theorem cbu8Next_lead {n : ℕ} (hlow : 0xc0 ≤ n) (hhigh : n < 0xfe) (rest : Bytes) :
    cbu8Next (UInt8.ofNat n :: rest) = utf8NextCharSafeBody (UInt8.ofNat n) rest := by
  have hn : (UInt8.ofNat n).toNat = n := toNat_utf8Byte (by omega)
  rw [cbu8Next, hn, if_neg (by omega), if_pos]
  rw [isUtf8Lead, hn]
  exact decide_eq_true ⟨hlow, hhigh⟩

/-- A trail byte is seen as one. -/
theorem isUtf8Trail_trail {n : ℕ} (h : n < 64) : isUtf8Trail (UInt8.ofNat (n + 0x80)) = true := by
  rw [isUtf8Trail, toNat_utf8Byte (by omega)]
  exact decide_eq_true (by omega)

/-- The six bits of a trail byte. -/
theorem toNat_trail_mod {n : ℕ} (h : n < 64) : (UInt8.ofNat (n + 0x80)).toNat % 64 = n := by
  rw [toNat_utf8Byte (by omega)]
  omega

/-- A trail byte adds its six bits. -/
theorem addTrailBytes_trail {count c n : ℕ} (h : n < 64) (rest : Bytes) :
    addTrailBytes (count + 1) c (UInt8.ofNat (n + 0x80) :: rest) =
      addTrailBytes count (c * 64 + n) rest := by
  rw [addTrailBytes, toNat_trail_mod h, isUtf8Trail_trail h]
  simp only [Bool.not_true, Bool.or_false]

/-- Without trail bytes nothing is added. -/
theorem addTrailBytes_zero (c : ℕ) (rest : Bytes) : addTrailBytes 0 c rest = (c, false) := by
  cases rest <;> rfl

/-- A sequence without an illegal byte, that is as short as can be and no surrogate, is
read. -/
theorem utf8NextCharSafeBody_of_legal {lead : UInt8} {rest : Bytes} {count c : ℕ}
    (hcount : utf8CountTrailBytes lead = count) (hpos : count ≠ 0) (hlen : count ≤ rest.length)
    (hassemble : assembleUtf8 lead rest = (c, false)) (hmin : utf8MinLegal.getD count 0 ≤ c)
    (hsurrogate : c / 2048 ≠ 27) :
    utf8NextCharSafeBody lead rest = (some c, rest.drop count) := by
  rw [utf8NextCharSafeBody]
  simp only [hcount, hassemble]
  rw [if_pos hlen, if_neg hpos, if_neg]
  rw [isSurrogate, decide_eq_true_eq]
  rintro (h | h | h)
  · cases h
  · omega
  · exact hsurrogate h

/-- A character of two bytes is read. -/
theorem cbu8Next_two {x y : ℕ} (hx : x < 32) (hlegal : 2 ≤ x) (hy : y < 64) (rest : Bytes) :
    cbu8Next (UInt8.ofNat (x + 0xc0) :: UInt8.ofNat (y + 0x80) :: rest) =
      (some (x * 64 + y), rest) := by
  have hlead : (UInt8.ofNat (x + 0xc0)).toNat = x + 0xc0 := toNat_utf8Byte (by omega)
  have hcount : utf8CountTrailBytes (UInt8.ofNat (x + 0xc0)) = 1 := by
    rw [utf8CountTrailBytes, hlead, if_neg (by omega), if_pos (by omega)]
  have hmask : (x + 0xc0) % 2 ^ (6 - 1) = x := by omega
  have hassemble : assembleUtf8 (UInt8.ofNat (x + 0xc0)) (UInt8.ofNat (y + 0x80) :: rest) =
      (x * 64 + y, false) := by
    simp only [assembleUtf8, hcount, hlead, hmask]
    rw [if_neg (by omega), if_neg (by omega), addTrailBytes_trail hy, addTrailBytes_zero]
  rw [cbu8Next_lead (by omega) (by omega)]
  refine utf8NextCharSafeBody_of_legal hcount (by omega) (by simp) hassemble ?_ (by omega)
  show 0x80 ≤ x * 64 + y
  omega

/-- A character of three bytes is read, if it is no surrogate. -/
theorem cbu8Next_three {x y z : ℕ} (hx : x < 16) (hy : y < 64) (hz : z < 64)
    (hlegal : 0x800 ≤ x * 4096 + y * 64 + z)
    (hsurrogate : (x * 4096 + y * 64 + z) / 2048 ≠ 27) (rest : Bytes) :
    cbu8Next (UInt8.ofNat (x + 0xe0) :: UInt8.ofNat (y + 0x80) :: UInt8.ofNat (z + 0x80) :: rest) =
      (some (x * 4096 + y * 64 + z), rest) := by
  have hlead : (UInt8.ofNat (x + 0xe0)).toNat = x + 0xe0 := toNat_utf8Byte (by omega)
  have hcount : utf8CountTrailBytes (UInt8.ofNat (x + 0xe0)) = 2 := by
    rw [utf8CountTrailBytes, hlead, if_neg (by omega), if_neg (by omega), if_pos (by omega)]
  have hmask : (x + 0xe0) % 2 ^ (6 - 2) = x := by omega
  have hassemble : assembleUtf8 (UInt8.ofNat (x + 0xe0))
      (UInt8.ofNat (y + 0x80) :: UInt8.ofNat (z + 0x80) :: rest) =
        (x * 4096 + y * 64 + z, false) := by
    simp only [assembleUtf8, hcount, hlead, hmask]
    rw [if_neg (by omega), if_neg (by omega), addTrailBytes_trail hy, addTrailBytes_trail hz,
      addTrailBytes_zero, show (x * 64 + y) * 64 + z = x * 4096 + y * 64 + z by omega]
  rw [cbu8Next_lead (by omega) (by omega)]
  exact utf8NextCharSafeBody_of_legal hcount (by omega) (by simp) hassemble hlegal hsurrogate

/-- A character of four bytes is read, if it is not too large. -/
theorem cbu8Next_four {x y z w : ℕ} (hy : y < 64) (hz : z < 64) (hw : w < 64)
    (hlegal : 0x10000 ≤ x * 262144 + y * 4096 + z * 64 + w)
    (hmax : x * 262144 + y * 4096 + z * 64 + w < 0x110000) (rest : Bytes) :
    cbu8Next (UInt8.ofNat (x + 0xf0) :: UInt8.ofNat (y + 0x80) :: UInt8.ofNat (z + 0x80) ::
        UInt8.ofNat (w + 0x80) :: rest) =
      (some (x * 262144 + y * 4096 + z * 64 + w), rest) := by
  have hlead : (UInt8.ofNat (x + 0xf0)).toNat = x + 0xf0 := toNat_utf8Byte (by omega)
  have hcount : utf8CountTrailBytes (UInt8.ofNat (x + 0xf0)) = 3 := by
    rw [utf8CountTrailBytes, hlead, if_neg (by omega), if_neg (by omega), if_neg (by omega),
      if_pos (by omega)]
  have hmask : (x + 0xf0) % 2 ^ (6 - 3) = x := by omega
  have hassemble : assembleUtf8 (UInt8.ofNat (x + 0xf0)) (UInt8.ofNat (y + 0x80) ::
      UInt8.ofNat (z + 0x80) :: UInt8.ofNat (w + 0x80) :: rest) =
        (x * 262144 + y * 4096 + z * 64 + w, false) := by
    simp only [assembleUtf8, hcount, hlead, hmask, List.headD_cons, toNat_trail_mod hy]
    rw [if_neg (by omega), if_neg (by omega), addTrailBytes_trail hy, addTrailBytes_trail hz,
      addTrailBytes_trail hw, addTrailBytes_zero,
      show ((x * 64 + y) * 64 + z) * 64 + w = x * 262144 + y * 4096 + z * 64 + w by omega]
  rw [cbu8Next_lead (by omega) (by omega)]
  refine utf8NextCharSafeBody_of_legal hcount (by omega) (by simp) hassemble hlegal (by omega)

/-- What is written for a valid code point is read as that code point. -/
theorem cbu8Next_cbu8AppendUnsafe {c : ℕ} (h : isValidCodepoint c = true) (rest : Bytes) :
    cbu8Next (cbu8AppendUnsafe c ++ rest) = (some c, rest) := by
  have hvalid : c < 0xD800 ∨ 0xE000 ≤ c ∧ c ≤ 0x10FFFF := of_decide_eq_true h
  unfold cbu8AppendUnsafe
  by_cases h₁ : c ≤ 0x7f
  · rw [if_pos h₁]
    exact cbu8Next_one (by omega) rest
  by_cases h₂ : c ≤ 0x7ff
  · rw [if_neg h₁, if_pos h₂]
    have hread := cbu8Next_two (x := c / 64) (y := c % 64) (by omega) (by omega)
      (Nat.mod_lt _ (by decide)) rest
    rwa [Nat.div_add_mod'] at hread
  by_cases h₃ : c ≤ 0xffff
  · rw [if_neg h₁, if_neg h₂, if_pos h₃]
    have hsum : c / 4096 * 4096 + c / 64 % 64 * 64 + c % 64 = c := by omega
    have hread := cbu8Next_three (x := c / 4096) (y := c / 64 % 64) (z := c % 64) (by omega)
      (Nat.mod_lt _ (by decide)) (Nat.mod_lt _ (by decide)) (by omega) (by omega) rest
    rwa [hsum] at hread
  · rw [if_neg h₁, if_neg h₂, if_neg h₃]
    have hsum : c / 262144 * 262144 + c / 4096 % 64 * 4096 + c / 64 % 64 * 64 + c % 64 = c := by
      omega
    have hread := cbu8Next_four (x := c / 262144) (y := c / 4096 % 64) (z := c / 64 % 64)
      (w := c % 64) (Nat.mod_lt _ (by decide)) (Nat.mod_lt _ (by decide))
      (Nat.mod_lt _ (by decide)) (by omega) (by omega) rest
    rwa [hsum] at hread

/-! ## What has been read -/

/-- A trail byte is made of its six bits. -/
theorem exists_of_isUtf8Trail {t : UInt8} (h : isUtf8Trail t = true) :
    ∃ y < 64, t = UInt8.ofNat (y + 0x80) := by
  have hdiv : t.toNat / 64 = 2 := of_decide_eq_true h
  refine ⟨t.toNat - 0x80, by omega, ?_⟩
  rw [Nat.sub_add_cancel (by omega), UInt8.ofNat_toNat]

/-- Legal bytes are trail bytes. -/
theorem exists_of_addTrailBytes {count c c' : ℕ} {rest : Bytes} (hlen : count + 1 ≤ rest.length)
    (h : addTrailBytes (count + 1) c rest = (c', false)) :
    ∃ y < 64, ∃ ts, rest = UInt8.ofNat (y + 0x80) :: ts ∧
      addTrailBytes count (c * 64 + y) ts = (c', false) := by
  cases rest with
  | nil => cases hlen
  | cons t ts =>
      rw [addTrailBytes] at h
      have hc : (addTrailBytes count (c * 64 + t.toNat % 64) ts).1 = c' := congrArg Prod.fst h
      have hlegal : ((addTrailBytes count (c * 64 + t.toNat % 64) ts).2 || !isUtf8Trail t) =
          false := congrArg Prod.snd h
      obtain ⟨hrest, htrail⟩ := Bool.or_eq_false_iff.mp hlegal
      rw [Bool.not_eq_false'] at htrail
      obtain ⟨y, hy, rfl⟩ := exists_of_isUtf8Trail htrail
      rw [toNat_trail_mod hy] at hc hrest
      exact ⟨y, hy, ts, rfl, Prod.ext hc hrest⟩

/-- A sequence that is read has no illegal byte, is as short as can be and is no
surrogate. -/
theorem legal_of_utf8NextCharSafeBody {lead : UInt8} {rest text : Bytes} {c : ℕ}
    (h : utf8NextCharSafeBody lead rest = (some c, text)) :
    utf8CountTrailBytes lead ≠ 0 ∧ utf8CountTrailBytes lead ≤ rest.length ∧
      assembleUtf8 lead rest = (c, false) ∧
      utf8MinLegal.getD (utf8CountTrailBytes lead) 0 ≤ c ∧ c / 2048 ≠ 27 ∧
      text = rest.drop (utf8CountTrailBytes lead) := by
  unfold utf8NextCharSafeBody at h
  by_cases hlen : utf8CountTrailBytes lead ≤ rest.length
  · simp only [if_pos hlen] at h
    by_cases hzero : utf8CountTrailBytes lead = 0
    · rw [if_pos hzero] at h
      cases h
    · rw [if_neg hzero] at h
      split at h
      · cases h
      · rename_i hlegal
        rw [not_or, not_or, Bool.not_eq_true, isSurrogate, decide_eq_true_eq] at hlegal
        obtain ⟨rfl, rfl⟩ := Prod.mk.inj h |>.imp Option.some.inj id
        exact ⟨hzero, hlen, Prod.ext rfl hlegal.1, by omega, hlegal.2.2, rfl⟩
  · simp only [if_neg hlen] at h
    cases h

/-- A byte is the one of its value. -/
theorem eq_utf8Byte {b : UInt8} {x base : ℕ} (h : b.toNat = x + base) :
    b = UInt8.ofNat (x + base) := by
  rw [← h, UInt8.ofNat_toNat]

/-- What the body reads is what is written for the code point, and the code point is
valid. -/
theorem eq_of_utf8NextCharSafeBody {lead : UInt8} {rest text : Bytes} {c : ℕ}
    (hlead : 0xc0 ≤ lead.toNat) (h : utf8NextCharSafeBody lead rest = (some c, text)) :
    lead :: rest = cbu8AppendUnsafe c ++ text ∧ isValidCodepoint c = true := by
  obtain ⟨hzero, hlen, hassemble, hmin, hsurrogate, htext⟩ := legal_of_utf8NextCharSafeBody h
  by_cases h₁ : lead.toNat < 0xe0
  · -- Two bytes.
    have hcount : utf8CountTrailBytes lead = 1 := by
      rw [utf8CountTrailBytes, if_neg (by omega), if_pos h₁]
    obtain ⟨x, hx⟩ : ∃ x, lead.toNat = x + 0xc0 := ⟨lead.toNat - 0xc0, by omega⟩
    have hmask : (x + 0xc0) % 2 ^ (6 - 1) = x := by omega
    simp only [assembleUtf8, hcount, hx, hmask] at hassemble hmin hlen htext
    rw [if_neg (by omega), if_neg (by omega)] at hassemble
    obtain ⟨y, hy, ts, rfl, hdone⟩ := exists_of_addTrailBytes hlen hassemble
    rw [addTrailBytes_zero] at hdone
    obtain rfl : x * 64 + y = c := congrArg Prod.fst hdone
    have hlegal : 0x80 ≤ x * 64 + y := hmin
    refine ⟨?_, decide_eq_true (by omega)⟩
    rw [htext, eq_utf8Byte hx, cbu8AppendUnsafe, if_neg (by omega), if_pos (by omega),
      show (x * 64 + y) / 64 = x by omega, show (x * 64 + y) % 64 = y by omega]
    rfl
  by_cases h₂ : lead.toNat < 0xf0
  · -- Three bytes.
    have hcount : utf8CountTrailBytes lead = 2 := by
      rw [utf8CountTrailBytes, if_neg (by omega), if_neg h₁, if_pos h₂]
    obtain ⟨x, hx⟩ : ∃ x, lead.toNat = x + 0xe0 := ⟨lead.toNat - 0xe0, by omega⟩
    have hmask : (x + 0xe0) % 2 ^ (6 - 2) = x := by omega
    simp only [assembleUtf8, hcount, hx, hmask] at hassemble hmin hlen htext
    rw [if_neg (by omega), if_neg (by omega)] at hassemble
    obtain ⟨y, hy, ts, rfl, hnext⟩ := exists_of_addTrailBytes hlen hassemble
    obtain ⟨z, hz, ts, rfl, hdone⟩ :=
      exists_of_addTrailBytes (by simp only [List.length_cons] at hlen; omega) hnext
    rw [addTrailBytes_zero] at hdone
    obtain rfl : (x * 64 + y) * 64 + z = c := congrArg Prod.fst hdone
    have hlegal : 0x800 ≤ (x * 64 + y) * 64 + z := hmin
    refine ⟨?_, decide_eq_true (by omega)⟩
    rw [htext, eq_utf8Byte hx, cbu8AppendUnsafe, if_neg (by omega), if_neg (by omega),
      if_pos (by omega), show ((x * 64 + y) * 64 + z) / 4096 = x by omega,
      show ((x * 64 + y) * 64 + z) / 64 % 64 = y by omega,
      show ((x * 64 + y) * 64 + z) % 64 = z by omega]
    rfl
  by_cases h₃ : lead.toNat < 0xf8
  · -- Four bytes.
    have hcount : utf8CountTrailBytes lead = 3 := by
      rw [utf8CountTrailBytes, if_neg (by omega), if_neg h₁, if_neg h₂, if_pos h₃]
    obtain ⟨x, hx⟩ : ∃ x, lead.toNat = x + 0xf0 := ⟨lead.toNat - 0xf0, by omega⟩
    have hmask : (x + 0xf0) % 2 ^ (6 - 3) = x := by omega
    simp only [assembleUtf8, hcount, hx, hmask] at hassemble hmin hlen htext
    rw [if_neg (by omega)] at hassemble
    by_cases hbeyond : 0x110 ≤ x * 64 + (rest.headD 0).toNat % 64
    · rw [if_pos ⟨trivial, hbeyond⟩] at hassemble
      cases congrArg Prod.snd hassemble
    rw [if_neg (by omega)] at hassemble
    obtain ⟨y, hy, ts, rfl, hnext⟩ := exists_of_addTrailBytes hlen hassemble
    rw [List.headD_cons, toNat_trail_mod hy] at hbeyond
    simp only [List.length_cons] at hlen
    obtain ⟨z, hz, ts, rfl, hlast⟩ := exists_of_addTrailBytes (by omega) hnext
    simp only [List.length_cons] at hlen
    obtain ⟨w, hw, ts, rfl, hdone⟩ := exists_of_addTrailBytes (by omega) hlast
    rw [addTrailBytes_zero] at hdone
    obtain rfl : ((x * 64 + y) * 64 + z) * 64 + w = c := congrArg Prod.fst hdone
    have hlegal : 0x10000 ≤ ((x * 64 + y) * 64 + z) * 64 + w := hmin
    refine ⟨?_, decide_eq_true (by omega)⟩
    rw [htext, eq_utf8Byte hx, cbu8AppendUnsafe, if_neg (by omega), if_neg (by omega),
      if_neg (by omega), show (((x * 64 + y) * 64 + z) * 64 + w) / 262144 = x by omega,
      show (((x * 64 + y) * 64 + z) * 64 + w) / 4096 % 64 = y by omega,
      show (((x * 64 + y) * 64 + z) * 64 + w) / 64 % 64 = z by omega,
      show (((x * 64 + y) * 64 + z) * 64 + w) % 64 = w by omega]
    rfl
  · -- The other lead bytes are never legal.
    have hmany : 4 ≤ utf8CountTrailBytes lead := by
      unfold utf8CountTrailBytes at hzero ⊢
      rw [if_neg (by omega), if_neg h₁, if_neg h₂, if_neg h₃] at hzero ⊢
      split_ifs at hzero ⊢ <;> omega
    simp only [assembleUtf8, if_pos hmany] at hassemble
    cases congrArg Prod.snd hassemble

/-- **What is read is what is written for it**, and a valid code point. -/
theorem eq_of_cbu8Next {text rest : Bytes} {c : ℕ} (h : cbu8Next text = (some c, rest)) :
    text = cbu8AppendUnsafe c ++ rest ∧ isValidCodepoint c = true := by
  cases text with
  | nil => cases h
  | cons b bs =>
      rw [cbu8Next] at h
      by_cases hascii : b.toNat < 0x80
      · rw [if_pos hascii] at h
        obtain ⟨rfl, rfl⟩ := Prod.mk.inj h |>.imp Option.some.inj id
        refine ⟨?_, decide_eq_true (by omega)⟩
        rw [cbu8AppendUnsafe, if_pos (by omega), UInt8.ofNat_toNat]
        rfl
      · rw [if_neg hascii] at h
        by_cases hlead : isUtf8Lead b = true
        · rw [if_pos hlead] at h
          exact eq_of_utf8NextCharSafeBody (of_decide_eq_true hlead).1 h
        · rw [if_neg hlead] at h
          cases h

/-! ## The code -/

/-- A character has a valid code point. -/
theorem isValidCodepoint_toNat (c : Char) : isValidCodepoint c.toNat = true := by
  have hc : c.toNat.isValidChar := c.valid
  unfold Nat.isValidChar at hc
  exact decide_eq_true (by omega)

/-- The code point of a character is that of the character. -/
theorem validCodepoint_toNat (c : Char) : validCodepoint c.toNat = some c := by
  rw [validCodepoint, if_pos (isValidCodepoint_toNat c), Char.ofNat_toNat]

/-- The character of a valid code point has that code point. -/
theorem toNat_of_validCodepoint {n : ℕ} {c : Char} (h : validCodepoint n = some c) :
    c.toNat = n := by
  unfold validCodepoint at h
  by_cases hvalid : isValidCodepoint n = true
  · rw [if_pos hvalid] at h
    have hn : n < 0xD800 ∨ 0xE000 ≤ n ∧ n ≤ 0x10FFFF := of_decide_eq_true hvalid
    have hchar : n.isValidChar := by
      unfold Nat.isValidChar
      omega
    rw [← Option.some.inj h, Char.ofNat, dif_pos hchar]
    rfl
  · rw [if_neg hvalid] at h
    cases h

/-- A code point is written with a byte at least. -/
theorem cbu8AppendUnsafe_ne_nil (c : ℕ) : cbu8AppendUnsafe c ≠ [] := by
  unfold cbu8AppendUnsafe
  split_ifs <;> exact List.cons_ne_nil _ _

/-- Dropping from the front of a text does not make it longer. -/
theorem length_dropWhile_take_append_drop_le (p : UInt8 → Bool) (n : ℕ) (l : Bytes) :
    ((l.take n).dropWhile p ++ l.drop n).length ≤ l.length := by
  have htake := (List.dropWhile_suffix (l := l.take n) p).length_le
  rw [List.length_append]
  simp only [List.length_take, List.length_drop] at htake ⊢
  omega

/-- Reading goes on behind the first byte, at least. -/
theorem cbu8Next_shorter {text : Bytes} (h : text ≠ []) :
    (cbu8Next text).2.length < text.length := by
  obtain ⟨b, bs, rfl⟩ := List.exists_cons_of_ne_nil h
  rw [cbu8Next, List.length_cons, Nat.lt_succ_iff]
  split_ifs
  · exact le_rfl
  · unfold utf8NextCharSafeBody
    dsimp only
    split_ifs
    · exact le_rfl
    · exact length_dropWhile_take_append_drop_le _ _ _
    · rw [List.length_drop]
      omega
    · exact (List.dropWhile_suffix _).length_le
  · exact le_rfl

/-- **UTF-8, as the macros write and read it.** -/
def utf8 : StreamCode Char UInt8 where
  encode := writeUnicodeCharacter
  next := readUnicodeCharacter
  encode_ne_nil c := cbu8AppendUnsafe_ne_nil c.toNat
  next_encode c rest := by
    rw [readUnicodeCharacter, writeUnicodeCharacter,
      cbu8Next_cbu8AppendUnsafe (isValidCodepoint_toNat c)]
    exact Prod.ext (validCodepoint_toNat c) rfl
  next_shorter := cbu8Next_shorter

/-! ## ASCII -/

/-- A number below 128 is the code point of its character. -/
theorem validCodepoint_of_ascii {n : ℕ} (h : n < 128) :
    validCodepoint n = some (Char.ofNat n) := by
  rw [validCodepoint, if_pos]
  exact decide_eq_true (by omega)

/-- A character of ASCII is written as its byte. -/
theorem writeUnicodeCharacter_ofNat {n : ℕ} (h : n < 128) :
    writeUnicodeCharacter (Char.ofNat n) = [UInt8.ofNat n] := by
  rw [writeUnicodeCharacter, toNat_of_validCodepoint (validCodepoint_of_ascii h),
    cbu8AppendUnsafe, if_pos (by omega)]

/-- ASCII is written as it is. -/
theorem encodeAll_ascii {s : Bytes} (h : ∀ c ∈ s, c < 128) :
    utf8.encodeAll (s.map fun c => Char.ofNat c.toNat) = s := by
  have hbyte : ∀ c ∈ s, utf8.encode (Char.ofNat c.toNat) = [c] := by
    intro c hc
    have hwritten := writeUnicodeCharacter_ofNat (UInt8.lt_iff_toNat_lt.mp (h c hc))
    rwa [UInt8.ofNat_toNat] at hwritten
  rw [StreamCode.encodeAll, List.flatMap_map, List.flatMap_congr hbyte]
  exact List.flatMap_singleton' s

/-! ## Whole texts -/

/-- The loops over a text read it to its end. -/
theorem readCharacters_eq (src : Bytes) : readCharacters src = utf8.readAll src := by
  have hloop : ∀ rounds b, readCharactersLoop rounds b = utf8.readLoop rounds b := by
    intro rounds
    induction rounds with
    | zero => intro b; rfl
    | succ rounds ih =>
        intro b
        cases b with
        | nil => rfl
        | cons c cs =>
            rw [readCharactersLoop, ih]
            rfl
  exact hloop _ _

end TronWallet.Analysis
