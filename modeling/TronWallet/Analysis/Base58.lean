import TronWallet.Lib.Radix
import TronWallet.Model.Base58

/-!
# Base58 as a change of base

Both directions of the codec run the same loop: the number in a buffer is multiplied by one
base and a digit is added, in place, in the other base (`hornerLoop`).  While the number
fits into the buffer no carry is left, and the digits beyond the running length are zero
(`hornerLoop_spec`); the sizes that are allocated are enough for all digits
(`encode_fits`, `decode_fits`).

So encoding is `recode 256 58` followed by a table, and decoding a text of the alphabet is
the inverse table followed by `recode 58 256` (`encodeBase58_eq`, `decodeBase58_eq`).
-/

set_option autoImplicit false

namespace TronWallet.Analysis

open TronWallet.Lib TronWallet.Lib.Radix TronWallet.Model

/-! ## Multiplying and adding in place -/

/-- One walk over the buffer: it keeps the number, up to the carry that is left, and the
zeros beyond the digits in use. -/
structure MulAdd (base factor length : ℕ) (ds : List ℕ) (carry i : ℕ)
    (r : List ℕ × ℕ × ℕ) : Prop where
  size : r.1.length = ds.length
  value : Nat.ofDigits base r.1 + base ^ ds.length * r.2.1 =
    factor * Nat.ofDigits base ds + carry
  le : i ≤ r.2.2
  zero : ∀ d ∈ r.1.drop (r.2.2 - i), d = 0

/-- What one pass over the digits does, by induction on the digits. -/
theorem mulAddLoop_spec (base factor : ℕ) {length : ℕ} (ds : List ℕ) (carry i : ℕ)
    (hzero : ∀ d ∈ ds.drop (length - i), d = 0) :
    MulAdd base factor length ds carry i (mulAddLoop base factor length ds carry i) := by
  induction ds generalizing carry i with
  | nil => exact ⟨rfl, by simp [mulAddLoop], Nat.le_refl _, fun d hd => by simp [mulAddLoop] at hd⟩
  | cons d ds ih =>
      unfold mulAddLoop
      by_cases hgo : carry ≠ 0 ∨ i < length
      · rw [if_pos hgo]
        have hrest : ∀ d' ∈ ds.drop (length - (i + 1)), d' = 0 := by
          intro d' hd'
          by_cases hi : i < length
          · refine hzero d' ?_
            rw [show length - i = (length - (i + 1)) + 1 by omega, List.drop_succ_cons]
            exact hd'
          · refine hzero d' ?_
            rw [show length - i = 0 by omega, List.drop_zero]
            exact List.mem_cons_of_mem _ (List.mem_of_mem_drop hd')
        have h := ih ((carry + factor * d) / base) (i + 1) hrest
        dsimp only
        generalize mulAddLoop base factor length ds ((carry + factor * d) / base) (i + 1) = r at h ⊢
        obtain ⟨ds', carry', i'⟩ := r
        refine ⟨congrArg (· + 1) h.size, ?_, Nat.le_of_succ_le h.le, ?_⟩
        · have hv := h.value
          have hdiv := Nat.div_add_mod (carry + factor * d) base
          simp only [Nat.ofDigits_cons, List.length_cons] at hv ⊢
          calc (carry + factor * d) % base + base * Nat.ofDigits base ds' +
                base ^ (ds.length + 1) * carry'
              = (carry + factor * d) % base + base * (Nat.ofDigits base ds' +
                base ^ ds.length * carry') := by ring
            _ = (carry + factor * d) % base + base * (factor * Nat.ofDigits base ds +
                (carry + factor * d) / base) := by rw [hv]
            _ = (base * ((carry + factor * d) / base) + (carry + factor * d) % base) +
                factor * (base * Nat.ofDigits base ds) := by ring
            _ = factor * (d + base * Nat.ofDigits base ds) + carry := by rw [hdiv]; ring
        · intro d' hd'
          refine h.zero d' ?_
          have hle : i + 1 ≤ i' := h.le
          simp only at hd' ⊢
          rw [show i' - i = (i' - (i + 1)) + 1 by omega, List.drop_succ_cons] at hd'
          exact hd'
      · rw [if_neg hgo]
        have hcarry : carry = 0 := by
          by_contra hne
          exact hgo (Or.inl hne)
        have hlen : length - i = 0 := by
          have : ¬ i < length := fun hi => hgo (Or.inr hi)
          omega
        rw [hlen, List.drop_zero] at hzero
        have hvalue : Nat.ofDigits base (d :: ds) = 0 := by
          rw [List.eq_replicate_of_mem hzero]
          exact Nat.ofDigits_replicate_zero
        refine ⟨rfl, ?_, Nat.le_refl _, ?_⟩
        · simp only [hvalue, hcarry]
          ring
        · simpa using hzero

/-- No carry is left while the number fits into the buffer. -/
theorem MulAdd.carry_eq_zero {base factor length : ℕ} {ds : List ℕ} {carry i : ℕ}
    {r : List ℕ × ℕ × ℕ} (h : MulAdd base factor length ds carry i r)
    (hfits : factor * Nat.ofDigits base ds + carry < base ^ ds.length) : r.2.1 = 0 := by
  by_contra hne
  have hle : base ^ ds.length * 1 ≤ base ^ ds.length * r.2.1 :=
    Nat.mul_le_mul_left _ (Nat.pos_of_ne_zero hne)
  have hv := h.value
  omega

/-- The loop over the digits of a numeral. -/
def hornerLoop (base factor : ℕ) : List ℕ → List ℕ → ℕ → List ℕ × ℕ
  | [], ds, length => (ds, length)
  | x :: xs, ds, length =>
    let (ds', _, length') := mulAddLoop base factor length ds x 0
    hornerLoop base factor xs ds' length'

/-- A buffer of a given size that holds a number, with zeros beyond the digits in use. -/
structure Holds (base size n : ℕ) (b : List ℕ × ℕ) : Prop where
  size : b.1.length = size
  lt : ∀ d ∈ b.1, d < base
  value : Nat.ofDigits base b.1 = n
  zero : ∀ d ∈ b.1.drop b.2, d = 0

/-- The empty buffer holds zero. -/
theorem holds_replicate (base size : ℕ) (hbase : 0 < base) :
    Holds base size 0 (List.replicate size 0, 0) :=
  ⟨List.length_replicate, fun d hd => by rw [List.eq_of_mem_replicate hd]; exact hbase,
    Nat.ofDigits_replicate_zero, fun d hd => List.eq_of_mem_replicate (List.mem_of_mem_drop hd)⟩

/-- **One digit more**: the buffer holds the number followed by the digit, and no carry is
left. -/
theorem Holds.mulAdd {base factor size n x : ℕ} {b : List ℕ × ℕ} (hbase : 0 < base)
    (h : Holds base size n b) (hfits : factor * n + x < base ^ size) :
    Holds base size (factor * n + x) ((mulAddLoop base factor b.2 b.1 x 0).1,
      (mulAddLoop base factor b.2 b.1 x 0).2.2) ∧
    (mulAddLoop base factor b.2 b.1 x 0).2.1 = 0 := by
  have hstep := mulAddLoop_spec base factor b.1 x 0 h.zero
  have hcarry := hstep.carry_eq_zero (by rw [h.value, h.size]; exact hfits)
  refine ⟨⟨hstep.size.trans h.size, mulAddLoop_lt hbase _ _ _ h.lt, ?_, hstep.zero⟩, hcarry⟩
  have hv := hstep.value
  rw [hcarry, Nat.mul_zero, Nat.add_zero, h.value] at hv
  exact hv

/-- **Every digit of a numeral**: the buffer holds the number of the numeral, if it fits. -/
theorem hornerLoop_spec {base factor size : ℕ} (hbase : 0 < base) (hfactor : 0 < factor)
    (xs : List ℕ) {n : ℕ} {b : List ℕ × ℕ} (h : Holds base size n b)
    (hfits : n * factor ^ xs.length + Nat.ofDigits factor xs.reverse < base ^ size) :
    Holds base size (n * factor ^ xs.length + Nat.ofDigits factor xs.reverse)
      (hornerLoop base factor xs b.1 b.2) := by
  induction xs generalizing n b with
  | nil =>
      simp only [List.length_nil, pow_zero, Nat.mul_one, List.reverse_nil, Nat.ofDigits_nil,
        Nat.add_zero] at hfits ⊢
      exact h
  | cons x xs ih =>
      have hvalue : n * factor ^ (x :: xs).length + Nat.ofDigits factor (x :: xs).reverse =
          (factor * n + x) * factor ^ xs.length + Nat.ofDigits factor xs.reverse := by
        rw [Nat.ofDigits_reverse_cons, List.length_cons]
        ring
      rw [hvalue] at hfits ⊢
      have hpow : 1 ≤ factor ^ xs.length := Nat.one_le_pow _ _ hfactor
      have hone : factor * n + x < base ^ size := by
        have := Nat.le_mul_of_pos_right (factor * n + x) hpow
        omega
      exact ih (h.mulAdd hbase hone).1 hfits

/-- A numeral that is short enough leaves no carry at any of its digits. -/
theorem hornerLoop_carry (base factor size : ℕ) (hbase : 0 < base) (hfactor : 1 < factor)
    {p : List ℕ} {x : ℕ} {q : List ℕ} (hlt : ∀ d ∈ p ++ x :: q, d < factor)
    (hsize : factor ^ (p ++ x :: q).length ≤ base ^ size) :
    let b := hornerLoop base factor p (List.replicate size 0) 0
    (mulAddLoop base factor b.2 b.1 x 0).2.1 = 0 := by
  have hbound : Nat.ofDigits factor (p ++ [x]).reverse < base ^ size := by
    refine Nat.lt_of_lt_of_le (ofDigits_reverse_lt hfactor fun d hd => hlt d ?_) (Nat.le_trans
      (Nat.pow_le_pow_right (by omega) ?_) hsize)
    · rcases List.mem_append.mp hd with hd | hd
      · exact List.mem_append_left _ hd
      · rw [List.mem_singleton.mp hd]
        simp
    · simp
  have hsplit : Nat.ofDigits factor (p ++ [x]).reverse =
      factor * Nat.ofDigits factor p.reverse + x := by
    rw [List.reverse_append, List.reverse_singleton, List.singleton_append, Nat.ofDigits_cons]
    ring
  rw [hsplit] at hbound
  have hpow : 1 ≤ factor := by omega
  have hp : 0 * factor ^ p.length + Nat.ofDigits factor p.reverse < base ^ size := by
    have := Nat.le_mul_of_pos_left (Nat.ofDigits factor p.reverse) hpow
    omega
  have hholds := hornerLoop_spec hbase (by omega) p (holds_replicate base size hbase) hp
  rw [Nat.zero_mul, Nat.zero_add] at hholds
  exact (hholds.mulAdd hbase hbound).2

/-- The digits in use, without the zeros in front, are those of the number. -/
theorem Holds.digits {base size n : ℕ} {b : List ℕ × ℕ} (hbase : 1 < base)
    (h : Holds base size n b) :
    ((b.1.take b.2).reverse).dropWhile (· = 0) = (Nat.digits base n).reverse := by
  have hvalue : Nat.ofDigits base (b.1.take b.2) = n := by
    rw [← h.value]
    conv_rhs => rw [← List.take_append_drop b.2 b.1, Nat.ofDigits_append,
      List.eq_replicate_of_mem h.zero, Nat.ofDigits_replicate_zero, Nat.mul_zero, Nat.add_zero]
  have hlt : ∀ d ∈ (b.1.take b.2).reverse, d < base := fun d hd =>
    h.lt d (List.mem_of_mem_take (List.mem_reverse.mp hd))
  have hdigits := digits_ofDigits_reverse hbase hlt
  rw [List.reverse_reverse, hvalue] at hdigits
  exact hdigits.symm

/-- What the loop over a numeral leaves in a buffer that can hold it. -/
theorem digits_hornerLoop (base factor size : ℕ) (hbase : 1 < base) (hfactor : 1 < factor)
    {xs : List ℕ} (hlt : ∀ d ∈ xs, d < factor) (hsize : factor ^ xs.length ≤ base ^ size) :
    let b := hornerLoop base factor xs (List.replicate size 0) 0
    ((b.1.take b.2).reverse).dropWhile (· = 0) =
      (Nat.digits base (Nat.ofDigits factor xs.reverse)).reverse := by
  have hfits : 0 * factor ^ xs.length + Nat.ofDigits factor xs.reverse < base ^ size := by
    have := ofDigits_reverse_lt hfactor hlt
    omega
  have h := hornerLoop_spec (by omega) (by omega) xs (holds_replicate base size (by omega)) hfits
  rw [Nat.zero_mul, Nat.zero_add] at h
  exact h.digits hbase

/-! ## Encoding -/

/-- The buffer for encoding has room for all digits. -/
theorem encode_fits (n : ℕ) : 256 ^ n ≤ 58 ^ (n * 138 / 100 + 1) :=
  pow_le_pow_of_ratio (by decide) (by decide) (by norm_num) n

/-- The buffer for decoding has room for all bytes. -/
theorem decode_fits (n : ℕ) : 58 ^ n ≤ 256 ^ (n * 733 / 1000 + 1) :=
  pow_le_pow_of_ratio (by decide) (by decide) (by decide +kernel) n

/-- The bytes of a string as digits. -/
def bytesOf (b : Bytes) : List ℕ := b.map UInt8.toNat

/-- Bytes are digits to the base 256. -/
theorem bytesOf_lt (b : Bytes) : ∀ d ∈ bytesOf b, d < 256 := by
  intro d hd
  obtain ⟨c, -, rfl⟩ := List.mem_map.mp hd
  exact c.toNat_lt

/-- The loop of the encoder is Horner's rule from base 256 to base 58. -/
theorem encodeLoop_eq (cs : Bytes) (b58 : List ℕ) (length : ℕ) :
    encodeLoop cs b58 length = hornerLoop 58 256 (bytesOf cs) b58 length := by
  induction cs generalizing b58 length with
  | nil => rfl
  | cons c cs ih => exact ih _ _

/-- The zeros in front of a string, and the rest. -/
theorem leadingZeros_bytesOf (b : Bytes) :
    leadingZeros (bytesOf b) = (b.takeWhile (· = 0)).length := by
  have hzero : ∀ c : UInt8, (decide (c.toNat = 0)) = decide (c = 0) := fun c => by
    rw [decide_eq_decide, ← UInt8.toNat_inj]
    rfl
  unfold leadingZeros bytesOf
  rw [List.takeWhile_map, List.length_map]
  simp only [Function.comp_def, hzero]

/-- Leading zero bytes are leading zero digits. -/
theorem dropWhile_bytesOf (b : Bytes) :
    (bytesOf b).dropWhile (· = 0) = bytesOf (b.dropWhile (· = 0)) := by
  have hzero : ∀ c : UInt8, (decide (c.toNat = 0)) = decide (c = 0) := fun c => by
    rw [decide_eq_decide, ← UInt8.toNat_inj]
    rfl
  unfold bytesOf
  rw [List.dropWhile_map]
  simp only [Function.comp_def, hzero]

/-- The number of a numeral does not depend on the zeros in front. -/
theorem ofDigits_dropWhile (base : ℕ) (ds : List ℕ) :
    Nat.ofDigits base (ds.dropWhile (· = 0)).reverse = Nat.ofDigits base ds.reverse := by
  conv_rhs => rw [← replicate_append_dropWhile ds, List.reverse_append, List.reverse_replicate,
    Nat.ofDigits_append_replicate_zero]

/-- The character of a digit. -/
def charOf (d : ℕ) : UInt8 := pszBase58.getD d 0

/-- **Encoding is a change of base**, spelled with the 58 characters. -/
theorem encodeBase58_eq (b : Bytes) : encodeBase58 b = (recode 256 58 (bytesOf b)).map charOf := by
  have hdigits := digits_hornerLoop 58 256 ((b.dropWhile (· = 0)).length * 138 / 100 + 1)
    (by decide) (by decide) (bytesOf_lt (b.dropWhile (· = 0)))
    (by rw [bytesOf, List.length_map]; exact encode_fits _)
  unfold encodeBase58 recode
  rw [List.map_append, List.map_replicate, leadingZeros_bytesOf]
  simp only [encodeLoop_eq]
  rw [hdigits, ← dropWhile_bytesOf, ofDigits_dropWhile]
  rfl

/-! ## Decoding -/

/-- The digit of a character. -/
def digitOf (c : UInt8) : ℕ := (mapBase58.getD c.toNat (-1)).toNat

/-- One of the 58 characters. -/
def Base58Char (c : UInt8) : Prop := mapBase58.getD c.toNat (-1) ≠ -1

/-- The two tables are inverse to each other. -/
theorem digitOf_charOf : ∀ d < 58, digitOf (charOf d) = d ∧ Base58Char (charOf d) := by
  unfold Base58Char
  decide

/-- What the tables say of a character. -/
theorem Base58Char.spec {c : UInt8} (h : Base58Char c) :
    charOf (digitOf c) = c ∧ digitOf c < 58 ∧ isspace c = false ∧ c ≠ 0 ∧
      (digitOf c = 0 ↔ c = 49) := by
  -- The table is gone through once, each value with its character.
  have hall : mapBase58.zipIdx.all (fun p => decide (p.1 ≠ -1 →
      charOf p.1.toNat = UInt8.ofNat p.2 ∧ p.1.toNat < 58 ∧ isspace (UInt8.ofNat p.2) = false ∧
        UInt8.ofNat p.2 ≠ 0 ∧ (p.1.toNat = 0 ↔ UInt8.ofNat p.2 = 49))) = true := by
    decide +kernel
  have hlength : mapBase58.length = 256 := by decide +kernel
  have hlt : c.toNat < mapBase58.length := hlength ▸ c.toNat_lt
  have hmem : (mapBase58.getD c.toNat (-1), c.toNat) ∈ mapBase58.zipIdx := by
    rw [List.mk_mem_zipIdx_iff_getElem?, List.getD_eq_getElem?_getD,
      List.getElem?_eq_getElem hlt, Option.getD_some]
  have hc := of_decide_eq_true (List.all_eq_true.mp hall _ hmem) h
  rw [UInt8.ofNat_toNat] at hc
  exact hc

/-- The digits of a text of the alphabet. -/
def digitsOf (t : Bytes) : List ℕ := t.map digitOf

/-- The characters of Base58 are digits to the base 58. -/
theorem digitsOf_lt {t : Bytes} (h : ∀ c ∈ t, Base58Char c) : ∀ d ∈ digitsOf t, d < 58 := by
  intro d hd
  obtain ⟨c, hc, rfl⟩ := List.mem_map.mp hd
  exact (h c hc).spec.2.1

/-- A text that ends, or goes on with white space. -/
def AtSpace (rest : Bytes) : Prop := ∀ c cs, rest = c :: cs → isspace c = true

/-- The loop reads the characters of the alphabet up to white space. -/
theorem decodeLoop_of_chars {t rest : Bytes} (h : ∀ c ∈ t, Base58Char c) (hrest : AtSpace rest)
    (b256 : List ℕ) (length : ℕ) : decodeLoop (t ++ rest) b256 length =
      some ((hornerLoop 256 58 (digitsOf t) b256 length).1,
        (hornerLoop 256 58 (digitsOf t) b256 length).2, rest) := by
  induction t generalizing b256 length with
  | nil =>
      cases rest with
      | nil => rfl
      | cons c cs =>
          rw [List.nil_append, decodeLoop, if_pos (hrest c cs rfl)]
          rfl
  | cons c t ih =>
      have hc := h c List.mem_cons_self
      have hspace : isspace c = false := hc.spec.2.2.1
      rw [List.cons_append, decodeLoop, hspace, if_neg (by decide)]
      dsimp only
      rw [if_neg hc]
      exact ih (fun c' hc' => h c' (List.mem_cons_of_mem _ hc')) _ _

/-- A loop that ends has read characters of the alphabet. -/
theorem chars_of_decodeLoop {s rest : Bytes} {b256 b256' : List ℕ} {length length' : ℕ}
    (h : decodeLoop s b256 length = some (b256', length', rest)) :
    ∃ t, s = t ++ rest ∧ (∀ c ∈ t, Base58Char c) ∧ AtSpace rest := by
  induction s generalizing b256 length with
  | nil =>
      cases h
      exact ⟨[], rfl, fun c hc => (by cases hc), fun c cs heq => by cases heq⟩
  | cons c s ih =>
      rw [decodeLoop] at h
      by_cases hspace : isspace c = true
      · rw [if_pos hspace] at h
        cases h
        refine ⟨[], rfl, fun c hc => (by cases hc), fun c' cs heq => ?_⟩
        cases heq
        exact hspace
      · rw [if_neg hspace] at h
        dsimp only at h
        by_cases hc : mapBase58.getD c.toNat (-1) = -1
        · rw [if_pos hc] at h
          cases h
        · rw [if_neg hc] at h
          obtain ⟨t, rfl, ht, hrest⟩ := ih h
          refine ⟨c :: t, rfl, fun c' hc' => ?_, hrest⟩
          rcases List.mem_cons.mp hc' with rfl | hc'
          · exact hc
          · exact ht c' hc'

/-- The ones in front of a text of the alphabet are the zeros of its digits. -/
theorem leadingZeros_digitsOf {t : Bytes} (h : ∀ c ∈ t, Base58Char c) :
    leadingZeros (digitsOf t) = (t.takeWhile (· = 49)).length ∧
      (digitsOf t).dropWhile (· = 0) = digitsOf (t.dropWhile (· = 49)) := by
  induction t with
  | nil => exact ⟨rfl, rfl⟩
  | cons c t ih =>
      have hzero := (h c List.mem_cons_self).spec.2.2.2.2
      obtain ⟨ih₁, ih₂⟩ := ih fun c' hc' => h c' (List.mem_cons_of_mem _ hc')
      unfold leadingZeros at ih₁ ⊢
      rw [show digitsOf (c :: t) = digitOf c :: digitsOf t from rfl]
      by_cases hc : c = 49
      · rw [List.takeWhile_cons_of_pos (by simpa using hzero.mpr hc),
          List.takeWhile_cons_of_pos (by simpa using hc), List.length_cons, List.length_cons, ih₁,
          List.dropWhile_cons_of_pos (by simpa using hzero.mpr hc),
          List.dropWhile_cons_of_pos (by simpa using hc)]
        exact ⟨rfl, ih₂⟩
      · have hd : ¬ digitOf c = 0 := fun h0 => hc (hzero.mp h0)
        rw [List.takeWhile_cons_of_neg (by simpa using hd),
          List.takeWhile_cons_of_neg (by simpa using hc),
          List.dropWhile_cons_of_neg (by simpa using hd),
          List.dropWhile_cons_of_neg (by simpa using hc)]
        exact ⟨rfl, rfl⟩

/-- Nothing but white space. -/
def Spaces (sp : Bytes) : Prop := ∀ c ∈ sp, isspace c = true

/-- White space is empty or begins with a space. -/
theorem Spaces.atSpace {sp : Bytes} (h : Spaces sp) : AtSpace sp := by
  rintro c cs rfl
  exact h c List.mem_cons_self

/-- Of white space nothing is left. -/
theorem Spaces.dropWhile_eq_nil {sp : Bytes} (h : Spaces sp) : sp.dropWhile isspace = [] :=
  List.dropWhile_eq_nil_iff.mpr h

/-- The ones in front of a text that is followed by white space. -/
theorem takeWhile_ones {t sp : Bytes} (h : Spaces sp) :
    (t ++ sp).takeWhile (· = 49) = t.takeWhile (· = 49) ∧
      (t ++ sp).dropWhile (· = 49) = t.dropWhile (· = 49) ++ sp := by
  induction t with
  | nil =>
      cases sp with
      | nil => exact ⟨rfl, rfl⟩
      | cons c cs =>
          have hc : ¬ c = 49 := by
            rintro rfl
            exact absurd (h 49 List.mem_cons_self) (by decide)
          exact ⟨by simp [hc], by simp [hc]⟩
  | cons c t ih =>
      by_cases hc : c = 49
      · simpa [hc] using ih
      · simp [hc]

/-- Decoding once the leading spaces are skipped. -/
theorem decodeBase58_of_skipped {s t sp : Bytes} (hs : s.dropWhile isspace = t ++ sp)
    (ht : ∀ c ∈ t, Base58Char c) (hsp : Spaces sp) :
    decodeBase58 s = some ((recode 58 256 (digitsOf t)).map UInt8.ofNat) := by
  obtain ⟨hones, hrest⟩ := takeWhile_ones (t := t) hsp
  obtain ⟨hzeros, hdrop⟩ := leadingZeros_digitsOf ht
  have hchars : ∀ c ∈ t.dropWhile (· = 49), Base58Char c := fun c hc =>
    ht c ((List.dropWhile_sublist _).mem hc)
  have hsize : 58 ^ (digitsOf (t.dropWhile (· = 49))).length ≤
      256 ^ ((t.dropWhile (· = 49) ++ sp).length * 733 / 1000 + 1) := by
    refine Nat.le_trans (decode_fits _) (Nat.pow_le_pow_right (by decide) ?_)
    rw [digitsOf, List.length_map, List.length_append]
    omega
  have hdigits := digits_hornerLoop 256 58
    ((t.dropWhile (· = 49) ++ sp).length * 733 / 1000 + 1) (by decide) (by decide)
    (digitsOf_lt hchars) hsize
  unfold decodeBase58 recode
  simp only [hs, hones, hrest, decodeLoop_of_chars hchars hsp.atSpace, hsp.dropWhile_eq_nil]
  rw [if_neg (by simp), List.map_append, List.map_replicate, hzeros, hdigits, ← hdrop,
    ofDigits_dropWhile]
  rfl

/-- **Decoding is the change of base back**, from a text of the alphabet that may have white
space around it. -/
theorem decodeBase58_eq {sp t sp' : Bytes} (hsp : Spaces sp) (ht : ∀ c ∈ t, Base58Char c)
    (hsp' : Spaces sp') :
    decodeBase58 (sp ++ t ++ sp') = some ((recode 58 256 (digitsOf t)).map UInt8.ofNat) := by
  cases t with
  | nil =>
      have hskip : (sp ++ [] ++ sp').dropWhile isspace = [] ++ [] := by
        rw [List.append_nil, List.append_nil, List.dropWhile_append_of_pos hsp,
          hsp'.dropWhile_eq_nil]
      exact decodeBase58_of_skipped hskip ht fun c hc => by cases hc
  | cons c t =>
      have hspace : isspace c = false := (ht c List.mem_cons_self).spec.2.2.1
      have hskip : (sp ++ c :: t ++ sp').dropWhile isspace = c :: t ++ sp' := by
        rw [List.append_assoc, List.dropWhile_append_of_pos hsp, List.cons_append,
          List.dropWhile_cons_of_neg (by simp [hspace])]
      exact decodeBase58_of_skipped hskip ht hsp'

/-- **What is decoded is a text of the alphabet** with white space around it. -/
theorem text_of_decodeBase58 {s b : Bytes} (h : decodeBase58 s = some b) :
    ∃ sp t sp', s = sp ++ t ++ sp' ∧ Spaces sp ∧ (∀ c ∈ t, Base58Char c) ∧ Spaces sp' := by
  unfold decodeBase58 at h
  dsimp only at h
  split at h
  · cases h
  next b256 length rest hloop =>
    split at h
    · cases h
    next hrest =>
      obtain ⟨t, ht, hchars, -⟩ := chars_of_decodeLoop hloop
      refine ⟨s.takeWhile isspace, (s.dropWhile isspace).takeWhile (· = 49) ++ t, rest, ?_,
        fun c hc => List.mem_takeWhile_imp hc, fun c hc => ?_,
        List.dropWhile_eq_nil_iff.mp (not_not.mp hrest)⟩
      · rw [List.append_assoc, List.append_assoc, ← ht, List.takeWhile_append_dropWhile,
          List.takeWhile_append_dropWhile]
      · rcases List.mem_append.mp hc with hc | hc
        · have hone : c = 49 := by simpa using List.mem_takeWhile_imp hc
          rw [hone]
          unfold Base58Char
          decide
        · exact hchars c hc

/-! ## The round trips -/

/-- Bytes to digits and back. -/
theorem map_ofNat_bytesOf (b : Bytes) : (bytesOf b).map UInt8.ofNat = b := by
  unfold bytesOf
  rw [List.map_map]
  exact (List.map_congr_left fun c _ => UInt8.ofNat_toNat).trans (List.map_id b)

/-- The characters of digits are read as the digits. -/
theorem digitsOf_map_charOf {ds : List ℕ} (h : ∀ d ∈ ds, d < 58) :
    digitsOf (ds.map charOf) = ds := by
  unfold digitsOf
  rw [List.map_map]
  exact (List.map_congr_left fun d hd => (digitOf_charOf d (h d hd)).1).trans (List.map_id ds)

/-- Characters to digits and back. -/
theorem map_charOf_digitsOf {t : Bytes} (h : ∀ c ∈ t, Base58Char c) :
    (digitsOf t).map charOf = t := by
  unfold digitsOf
  rw [List.map_map]
  exact (List.map_congr_left fun c hc => (h c hc).spec.1).trans (List.map_id t)

/-- Digits to bytes and back. -/
theorem bytesOf_map_ofNat {ds : List ℕ} (h : ∀ d ∈ ds, d < 256) :
    bytesOf (ds.map UInt8.ofNat) = ds := by
  unfold bytesOf
  rw [List.map_map]
  refine (List.map_congr_left fun d hd => ?_).trans (List.map_id ds)
  exact (UInt8.toNat_ofNat').trans (Nat.mod_eq_of_lt (h d hd))

/-- An encoded string is a text of the alphabet. -/
theorem base58Char_encodeBase58 (b : Bytes) : ∀ c ∈ encodeBase58 b, Base58Char c := by
  intro c hc
  rw [encodeBase58_eq] at hc
  obtain ⟨d, hd, rfl⟩ := List.mem_map.mp hc
  exact (digitOf_charOf d (recode_lt (by decide) d hd)).2

/-- **Decoding undoes encoding.** -/
theorem decodeBase58_encodeBase58 (b : Bytes) : decodeBase58 (encodeBase58 b) = some b := by
  have hnil : Spaces [] := fun c hc => by cases hc
  have h := decodeBase58_eq hnil (base58Char_encodeBase58 b) hnil
  rw [List.nil_append, List.append_nil] at h
  rw [h, encodeBase58_eq, digitsOf_map_charOf (recode_lt (by decide)),
    recode_recode (by decide) (by decide) (bytesOf_lt b), map_ofNat_bytesOf]

/-- **Encoding undoes decoding**, up to the white space around the text. -/
theorem encodeBase58_decoded {t : Bytes} (h : ∀ c ∈ t, Base58Char c) :
    encodeBase58 ((recode 58 256 (digitsOf t)).map UInt8.ofNat) = t := by
  rw [encodeBase58_eq, bytesOf_map_ofNat (recode_lt (by decide)),
    recode_recode (by decide) (by decide) (digitsOf_lt h), map_charOf_digitsOf h]

end TronWallet.Analysis
