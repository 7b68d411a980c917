import TronWallet.Analysis.JsonLexing
import TronWallet.Analysis.StringNumber
import Mathlib.Data.List.TakeWhile

/-!
# The numbers of a JSON text

A number is an optional minus, digits without a leading zero, and optionally a fraction and
an exponent.  The parser reads each part as far as it goes and then looks at the token
behind, so a number is consumed if and only if it is one of these texts and something that
may follow a number comes after it.
-/

set_option autoImplicit false

namespace TronWallet.Analysis

open TronWallet.Lib TronWallet.Model JSONParser

/-! ## The texts of numbers -/

/-- One digit or more. -/
def IsDigits (text : Bytes) : Prop := text ≠ [] ∧ DigitText text

/-- Digits that begin with a zero only if it is the only one. -/
def IsInt (text : Bytes) : Prop := IsDigits text ∧ (text.length ≤ 1 ∨ text.head? ≠ some 48)

/-- A fraction part, or none. -/
def IsFraction (text : Bytes) : Prop := text = [] ∨ ∃ digits, IsDigits digits ∧ text = 46 :: digits

/-- An exponent part, or none. -/
def IsExponent (text : Bytes) : Prop :=
  text = [] ∨ ∃ mark sign digits, (mark = 101 ∨ mark = 69) ∧
    (sign = [] ∨ sign = [45] ∨ sign = [43]) ∧ IsDigits digits ∧ text = mark :: (sign ++ digits)

/-- The texts of numbers. -/
inductive IsNumeral : Bytes → Prop
  | mk {minus int fraction exponent : Bytes} (sign : minus = [] ∨ minus = [45])
      (whole : IsInt int) (part : IsFraction fraction) (power : IsExponent exponent) :
      IsNumeral (minus ++ (int ++ (fraction ++ exponent)))

/-- A text whose first character belongs to no number. -/
def StopsNumber (text : Bytes) : Prop :=
  ∀ c, text.head? = some c → ¬(48 ≤ c ∧ c ≤ 57) ∧ c ≠ 46 ∧ c ≠ 101 ∧ c ≠ 69

/-- The value of a number: an `int` if it is one, else what `strtod` makes of it. -/
def numberValue (stringToDouble : Bytes → Option ℚ) (numeral : Bytes) : Option Value :=
  if (stringToInt numeral).1 then some (.integer (stringToInt numeral).2)
  else (stringToDouble numeral).map .double

/-! ## Digits -/

/-- Digits are read up to a character that is none. -/
theorem readDigits_append {digits rest : Bytes} (h : DigitText digits)
    (hstop : ∀ c, rest.head? = some c → ¬(48 ≤ c ∧ c ≤ 57)) :
    readDigits (digits ++ rest) = digits := by
  unfold readDigits
  rw [List.takeWhile_append_of_pos fun c hc => decide_eq_true (h c hc)]
  cases rest with
  | nil => rw [List.takeWhile_nil, List.append_nil]
  | cons c cs =>
      rw [List.takeWhile_cons_of_neg, List.append_nil]
      rw [decide_eq_true_eq]
      exact hstop c rfl

/-- What is read consists of digits. -/
theorem digitText_readDigits (text : Bytes) : DigitText (readDigits text) := by
  intro c hc
  unfold readDigits at hc
  have hdigit := List.mem_takeWhile_imp hc
  exact of_decide_eq_true hdigit

/-- What is read, and what is behind it, are the text. -/
theorem readDigits_isPrefix (text : Bytes) :
    readDigits text ++ text.drop (readDigits text).length = text :=
  List.prefix_iff_eq_append.mp (List.takeWhile_prefix _)

/-- Behind the digits there is no digit. -/
theorem not_digit_drop_readDigits {text : Bytes} {c : UInt8}
    (h : (text.drop (readDigits text).length).head? = some c) : ¬(48 ≤ c ∧ c ≤ 57) := by
  have hdrop : text.drop (readDigits text).length =
      text.dropWhile fun c => decide (48 ≤ c ∧ c ≤ 57) := by
    have hsplit := readDigits_isPrefix text
    conv at hsplit => rhs; rw [← List.takeWhile_append_dropWhile
      (p := fun c => decide (48 ≤ c ∧ c ≤ 57)) (l := text)]
    exact List.append_cancel_left hsplit
  rw [hdrop] at h
  intro hc
  have hhead := List.head?_dropWhile_not (fun c : UInt8 => decide (48 ≤ c ∧ c ≤ 57)) text
  rw [h] at hhead
  simp only [decide_eq_false_iff_not] at hhead
  exact hhead hc

/-- Between two positions of the parser a text has been taken. -/
def Takes (s s' : JSONParser) (taken : Bytes) : Prop :=
  s.rest = taken ++ s'.rest ∧ s'.index_ = s.index_ + taken.length

/-- Two parts are taken one behind the other. -/
theorem Takes.trans {s s' s'' : JSONParser} {first second : Bytes} (h : Takes s s' first)
    (h' : Takes s' s'' second) : Takes s s'' (first ++ second) :=
  ⟨by rw [h.1, h'.1, List.append_assoc], by rw [h'.2, h.2, List.length_append, Nat.add_assoc]⟩

/-- Nothing is taken where the parser stays. -/
theorem Takes.refl (s : JSONParser) : Takes s s [] := ⟨rfl, rfl⟩

/-- Passing the characters of a part takes it. -/
theorem takes_nextNChars {s : JSONParser} {taken rest : Bytes} (h : s.rest = taken ++ rest) :
    Takes s (s.nextNChars taken.length) taken := by
  refine ⟨?_, rfl⟩
  rw [nextNChars_rest, h, List.drop_left]

/-- Passing a character takes it. -/
theorem takes_nextChar {s : JSONParser} {c : UInt8} {rest : Bytes} (h : s.rest = c :: rest) :
    Takes s s.nextChar [c] := @takes_nextNChars s [c] rest h

/-- Digits are taken as far as they go. -/
theorem readInt_sound {allow : Bool} {s s' : JSONParser} (h : s.readInt allow = (true, s')) :
    ∃ digits, IsDigits digits ∧ (allow = true ∨ IsInt digits) ∧ Takes s s' digits ∧
      ∀ c, s'.rest.head? = some c → ¬(48 ≤ c ∧ c ≤ 57) := by
  obtain ⟨hok, rfl⟩ := Prod.mk.inj h
  rw [Bool.not_eq_true', decide_eq_false_iff_not, not_or] at hok
  have hsplit := (readDigits_isPrefix s.rest).symm
  have hdigits : IsDigits (readDigits s.rest) :=
    ⟨fun hnil => hok.1 (by rw [hnil]; rfl), digitText_readDigits _⟩
  refine ⟨readDigits s.rest, hdigits, ?_, takes_nextNChars hsplit,
    fun c hc => not_digit_drop_readDigits hc⟩
  cases allow with
  | true => exact Or.inl rfl
  | false =>
      refine Or.inr ⟨hdigits, ?_⟩
      by_cases hlen : (readDigits s.rest).length ≤ 1
      · exact Or.inl hlen
      · refine Or.inr fun hzero => hok.2 ⟨rfl, by omega, ?_⟩
        obtain ⟨c, cs, hcs⟩ := List.exists_cons_of_ne_nil hdigits.1
        rw [hcs] at hzero hsplit
        rw [current, hsplit]
        exact Option.some.inj hzero

/-- Digits that end where the text stops being digits are taken. -/
theorem readInt_complete (allow : Bool) {s : JSONParser} {digits rest : Bytes}
    (hdigits : IsDigits digits) (hallow : allow = true ∨ IsInt digits)
    (hrest : s.rest = digits ++ rest) (hstop : ∀ c, rest.head? = some c → ¬(48 ≤ c ∧ c ≤ 57)) :
    ∃ s', s.readInt allow = (true, s') ∧ s'.rest = rest ∧ Takes s s' digits := by
  have hread : readDigits s.rest = digits := by rw [hrest, readDigits_append hdigits.2 hstop]
  have htakes := takes_nextNChars hrest
  refine ⟨s.nextNChars digits.length, Prod.ext ?_ (by rw [readInt, hread]),
    by rw [nextNChars_rest, hrest, List.drop_left], htakes⟩
  rw [readInt, hread, Bool.not_eq_true', decide_eq_false_iff_not, not_or]
  refine ⟨fun hzero => hdigits.1 (List.length_eq_zero_iff.mp hzero), ?_⟩
  rintro ⟨rfl, hlen, hcurrent⟩
  rcases hallow with h | ⟨-, h | h⟩
  · cases h
  · omega
  · apply h
    obtain ⟨c, cs, rfl⟩ := List.exists_cons_of_ne_nil hdigits.1
    rw [current, hrest] at hcurrent
    exact congrArg some hcurrent

/-! ## The parts of a number -/

/-- The character a text begins with is the current one. -/
theorem current_of_head {s : JSONParser} {c : UInt8} {rest : Bytes} (h : s.rest = c :: rest) :
    s.current = c := by rw [current, h]; rfl

/-- A character that the text does not begin with, unless it is the NUL. -/
theorem current_ne_of_head {s : JSONParser} {c : UInt8} (hc : c ≠ 0)
    (h : s.rest.head? ≠ some c) : s.current ≠ c := by
  intro hcurrent
  obtain ⟨rest, hrest⟩ := rest_of_current hc hcurrent
  exact h (by rw [hrest]; rfl)

/-- The sign that is skipped is empty, a minus or a plus. -/
theorem takes_skipSign (s : JSONParser) :
    ∃ sign, (sign = [] ∨ sign = [45] ∨ sign = [43]) ∧ Takes s s.skipSign sign := by
  unfold skipSign
  by_cases h : s.current = 45 ∨ s.current = 43
  · rw [if_pos h]
    rcases h with h | h
    · obtain ⟨rest, hrest⟩ := rest_of_current (by decide) h
      exact ⟨[45], Or.inr (Or.inl rfl), takes_nextChar hrest⟩
    · obtain ⟨rest, hrest⟩ := rest_of_current (by decide) h
      exact ⟨[43], Or.inr (Or.inr rfl), takes_nextChar hrest⟩
  · rw [if_neg h]
    exact ⟨[], Or.inl rfl, .refl s⟩

/-- In front of digits the sign that is there is skipped. -/
theorem skipSign_of_sign {s : JSONParser} {sign digits rest : Bytes}
    (hsign : sign = [] ∨ sign = [45] ∨ sign = [43]) (hdigits : IsDigits digits)
    (hrest : s.rest = sign ++ (digits ++ rest)) :
    Takes s s.skipSign sign ∧ s.skipSign.rest = digits ++ rest := by
  unfold skipSign
  rcases hsign with rfl | rfl | rfl
  · obtain ⟨c, cs, rfl⟩ := List.exists_cons_of_ne_nil hdigits.1
    have hc := hdigits.2 c List.mem_cons_self
    have hcurrent : s.current = c := current_of_head hrest
    rw [hcurrent, if_neg]
    · exact ⟨.refl s, hrest⟩
    · rintro (rfl | rfl)
      · exact absurd hc (by decide)
      · exact absurd hc (by decide)
  · rw [if_pos (Or.inl (current_of_head hrest))]
    exact ⟨takes_nextChar hrest, by rw [nextChar_rest, hrest]; rfl⟩
  · rw [if_pos (Or.inr (current_of_head hrest))]
    exact ⟨takes_nextChar hrest, by rw [nextChar_rest, hrest]; rfl⟩

/-- A fraction that is read is one, and no digit follows it. -/
theorem readFraction_sound {s s' : JSONParser} (h : s.readFraction = (true, s'))
    (hstop : ∀ c, s.rest.head? = some c → ¬(48 ≤ c ∧ c ≤ 57)) :
    ∃ fraction, IsFraction fraction ∧ Takes s s' fraction ∧
      ∀ c, s'.rest.head? = some c → ¬(48 ≤ c ∧ c ≤ 57) := by
  unfold readFraction at h
  by_cases hdot : s.current = 46
  · rw [if_pos hdot] at h
    obtain ⟨rest, hrest⟩ := rest_of_current (by decide) hdot
    obtain ⟨digits, hdigits, -, htakes, hend⟩ := readInt_sound h
    exact ⟨46 :: digits, Or.inr ⟨digits, hdigits, rfl⟩, (takes_nextChar hrest).trans htakes, hend⟩
  · rw [if_neg hdot] at h
    obtain ⟨-, rfl⟩ := Prod.mk.inj h
    exact ⟨[], Or.inl rfl, .refl s, hstop⟩

/-- A fraction is read, if neither a digit nor a dot follows it. -/
theorem readFraction_complete {s : JSONParser} {fraction rest : Bytes}
    (hfraction : IsFraction fraction) (hrest : s.rest = fraction ++ rest)
    (hstop : ∀ c, rest.head? = some c → ¬(48 ≤ c ∧ c ≤ 57) ∧ c ≠ 46) :
    ∃ s', s.readFraction = (true, s') ∧ s'.rest = rest ∧ Takes s s' fraction := by
  unfold readFraction
  rcases hfraction with rfl | ⟨digits, hdigits, rfl⟩
  · have hdot : s.current ≠ 46 := current_ne_of_head (by decide) fun h => by
      rw [hrest, List.nil_append] at h
      exact (hstop _ h).2 rfl
    rw [if_neg hdot]
    exact ⟨s, rfl, hrest, .refl s⟩
  · rw [if_pos (current_of_head hrest)]
    obtain ⟨s', hread, hs', htakes⟩ := readInt_complete true hdigits (Or.inl rfl)
      (show s.nextChar.rest = digits ++ rest by rw [nextChar_rest, hrest]; rfl)
      fun c hc => (hstop c hc).1
    exact ⟨s', hread, hs', (takes_nextChar hrest).trans htakes⟩

/-- An exponent that is read is one. -/
theorem readExponent_sound {s s' : JSONParser} (h : s.readExponent = (true, s')) :
    ∃ exponent, IsExponent exponent ∧ Takes s s' exponent := by
  unfold readExponent at h
  by_cases hmark : s.current = 101 ∨ s.current = 69
  · rw [if_pos hmark] at h
    obtain ⟨mark, rest, hmark', hrest⟩ :
        ∃ mark rest, (mark = 101 ∨ mark = 69) ∧ s.rest = mark :: rest := by
      rcases hmark with hmark | hmark
      · obtain ⟨rest, hrest⟩ := rest_of_current (by decide) hmark
        exact ⟨101, rest, Or.inl rfl, hrest⟩
      · obtain ⟨rest, hrest⟩ := rest_of_current (by decide) hmark
        exact ⟨69, rest, Or.inr rfl, hrest⟩
    obtain ⟨sign, hsign, hskip⟩ := takes_skipSign s.nextChar
    obtain ⟨digits, hdigits, -, htakes, -⟩ := readInt_sound h
    exact ⟨mark :: (sign ++ digits), Or.inr ⟨mark, sign, digits, hmark', hsign, hdigits, rfl⟩,
      (takes_nextChar hrest).trans (hskip.trans htakes)⟩
  · rw [if_neg hmark] at h
    obtain ⟨-, rfl⟩ := Prod.mk.inj h
    exact ⟨[], Or.inl rfl, .refl s⟩

/-- An exponent is read, if what follows it stops the number. -/
theorem readExponent_complete {s : JSONParser} {exponent rest : Bytes}
    (hexponent : IsExponent exponent) (hrest : s.rest = exponent ++ rest)
    (hstop : StopsNumber rest) :
    ∃ s', s.readExponent = (true, s') ∧ s'.rest = rest ∧ Takes s s' exponent := by
  unfold readExponent
  rcases hexponent with rfl | ⟨mark, sign, digits, hmark, hsign, hdigits, rfl⟩
  · rw [List.nil_append] at hrest
    have hmark : ∀ mark, mark ≠ 0 → (mark = 101 ∨ mark = 69) → s.current ≠ mark :=
      fun mark hzero hmark => current_ne_of_head hzero fun h => by
        rw [hrest] at h
        obtain ⟨-, -, hlower, hupper⟩ := hstop _ h
        exact hmark.elim hlower hupper
    rw [if_neg (not_or.mpr
      ⟨hmark 101 (by decide) (Or.inl rfl), hmark 69 (by decide) (Or.inr rfl)⟩)]
    exact ⟨s, rfl, hrest, .refl s⟩
  · have hcurrent : s.current = mark := current_of_head hrest
    rw [hcurrent, if_pos hmark]
    obtain ⟨hskip, hskipped⟩ := skipSign_of_sign hsign hdigits
      (show s.nextChar.rest = sign ++ (digits ++ rest) by rw [nextChar_rest, hrest]; simp)
    obtain ⟨s', hread, hs', htakes⟩ := readInt_complete true hdigits (Or.inl rfl)
      hskipped fun c hc => (hstop c hc).1
    exact ⟨s', hread, hs', (takes_nextChar hrest).trans (hskip.trans htakes)⟩

/-! ## A number and what is behind it -/

/-- The parts that are read make up a number. -/
theorem readNumber_sound {s s' : JSONParser} (h : s.readNumber = (true, s')) :
    ∃ numeral, IsNumeral numeral ∧ Takes s s' numeral := by
  unfold readNumber at h
  dsimp only at h
  obtain ⟨minus, hminus, hsign⟩ : ∃ minus, (minus = [] ∨ minus = [45]) ∧
      Takes s (if s.current = 45 then s.nextChar else s) minus := by
    by_cases hcurrent : s.current = 45
    · rw [if_pos hcurrent]
      obtain ⟨rest, hrest⟩ := rest_of_current (by decide) hcurrent
      exact ⟨[45], Or.inr rfl, takes_nextChar hrest⟩
    · rw [if_neg hcurrent]
      exact ⟨[], Or.inl rfl, .refl s⟩
  generalize (if s.current = 45 then s.nextChar else s) = signed at h hsign
  cases hint : signed.readInt false with
  | mk ok whole =>
      rw [hint] at h
      cases ok with
      | false => cases h
      | true =>
          rw [if_neg (by simp)] at h
          cases hfraction : whole.readFraction with
          | mk ok fractional =>
              rw [hfraction] at h
              cases ok with
              | false => cases h
              | true =>
                  rw [if_neg (by simp)] at h
                  obtain ⟨int, -, hwhole, htakes, hend⟩ := readInt_sound hint
                  obtain ⟨fraction, hf, htakes', -⟩ := readFraction_sound hfraction hend
                  obtain ⟨exponent, he, htakes''⟩ := readExponent_sound h
                  exact ⟨_, .mk hminus (hwhole.resolve_left (by decide)) hf he,
                    hsign.trans (htakes.trans (htakes'.trans htakes''))⟩

/-- Behind the digits of a number no digit follows. -/
theorem head_append_ne_digit {fraction exponent rest : Bytes} (hf : IsFraction fraction)
    (he : IsExponent exponent) (hstop : StopsNumber rest) {c : UInt8}
    (h : (fraction ++ (exponent ++ rest)).head? = some c) : ¬(48 ≤ c ∧ c ≤ 57) := by
  rcases hf with rfl | ⟨digits, -, rfl⟩
  · rcases he with rfl | ⟨mark, sign, digits, hmark, -, -, rfl⟩
    · exact (hstop c h).1
    · cases h
      rcases hmark with rfl | rfl <;> decide
  · cases h
    decide

/-- Behind the fraction of a number neither a digit nor a dot follows. -/
theorem head_exponent_append {exponent rest : Bytes} (he : IsExponent exponent)
    (hstop : StopsNumber rest) {c : UInt8} (h : (exponent ++ rest).head? = some c) :
    ¬(48 ≤ c ∧ c ≤ 57) ∧ c ≠ 46 := by
  rcases he with rfl | ⟨mark, sign, digits, hmark, -, -, rfl⟩
  · exact ⟨(hstop c h).1, (hstop c h).2.1⟩
  · cases h
    rcases hmark with rfl | rfl <;> decide

/-- A number that ends where the text stops being one is read. -/
theorem readNumber_complete {s : JSONParser} {numeral rest : Bytes} (h : IsNumeral numeral)
    (hrest : s.rest = numeral ++ rest) (hstop : StopsNumber rest) :
    ∃ s', s.readNumber = (true, s') ∧ s'.rest = rest ∧ Takes s s' numeral := by
  obtain @⟨minus, int, fraction, exponent, hminus, hint, hf, he⟩ := h
  rw [List.append_assoc, List.append_assoc, List.append_assoc] at hrest
  have hsign : Takes s (if s.current = 45 then s.nextChar else s) minus ∧
      (if s.current = 45 then s.nextChar else s).rest =
        int ++ (fraction ++ (exponent ++ rest)) := by
    rcases hminus with rfl | rfl
    · obtain ⟨c, cs, rfl⟩ := List.exists_cons_of_ne_nil hint.1.1
      have hc := hint.1.2 c List.mem_cons_self
      rw [current_of_head hrest, if_neg (by rintro rfl; exact absurd hc (by decide))]
      exact ⟨.refl s, hrest⟩
    · rw [if_pos (current_of_head hrest)]
      exact ⟨takes_nextChar hrest, by rw [nextChar_rest, hrest]; rfl⟩
  unfold readNumber
  dsimp only
  generalize (if s.current = 45 then s.nextChar else s) = signed at hsign ⊢
  obtain ⟨whole, hwhole, hwholeRest, htakes⟩ := readInt_complete false hint.1
    (Or.inr hint) hsign.2 fun c hc => head_append_ne_digit hf he hstop hc
  obtain ⟨fractional, hfractional, hfractionalRest, htakes'⟩ :=
    readFraction_complete hf hwholeRest fun c hc => head_exponent_append he hstop hc
  obtain ⟨s', hs', hs'rest, htakes''⟩ := readExponent_complete he hfractionalRest hstop
  refine ⟨s', ?_, hs'rest, hsign.1.trans (htakes.trans (htakes'.trans htakes''))⟩
  rw [hwhole, if_neg (by simp)]
  dsimp only
  rw [hfractional, if_neg (by simp)]
  exact hs'

/-- A number ends in a digit. -/
theorem exists_last_digit {numeral : Bytes} (h : IsNumeral numeral) :
    ∃ init c, numeral = init ++ [c] ∧ 48 ≤ c ∧ c ≤ 57 := by
  have hdigits : ∀ digits, IsDigits digits → ∃ init c, digits = init ++ [c] ∧ 48 ≤ c ∧ c ≤ 57 :=
    fun digits hd => ⟨digits.dropLast, digits.getLast hd.1,
      (List.dropLast_append_getLast hd.1).symm, hd.2 _ (List.getLast_mem hd.1)⟩
  obtain @⟨minus, int, fraction, exponent, -, hint, hf, he⟩ := h
  rcases he with rfl | ⟨mark, sign, digits, -, -, hd, rfl⟩
  · rcases hf with rfl | ⟨digits, hd, rfl⟩
    · obtain ⟨init, c, rfl, hc⟩ := hdigits int hint.1
      exact ⟨minus ++ init, c, by simp, hc⟩
    · obtain ⟨init, c, rfl, hc⟩ := hdigits digits hd
      exact ⟨minus ++ (int ++ 46 :: init), c, by simp, hc⟩
  · obtain ⟨init, c, rfl, hc⟩ := hdigits digits hd
    exact ⟨minus ++ (int ++ (fraction ++ (mark :: (sign ++ init)))), c, by simp, hc⟩

/-- What may follow a number stops it. -/
theorem stopsNumber_of_mayFollow {rest : Bytes}
    (h : mayFollowNumber (tokenOf (skipGap rest)) = true) : StopsNumber rest := by
  intro c hc
  obtain ⟨cs, rfl⟩ := List.head?_eq_some_iff.mp hc
  have hsolid : IsSolid c → mayFollowNumber (tokenAt c) = true := by
    intro hsolid
    rwa [skipGap_solid hsolid] at h
  refine ⟨?_, ?_, ?_, ?_⟩
  · rintro ⟨hlow, hhigh⟩
    have hlow' : 48 ≤ c.toNat := hlow
    have hhigh' : c.toNat ≤ 57 := hhigh
    have hne : ∀ d : UInt8, (d.toNat < 48 ∨ 57 < d.toNat) → c ≠ d := by
      rintro d hd rfl
      omega
    have hnumber := hsolid ⟨by
      rintro (hb | hb | hb | hb)
      · exact hne 13 (by decide) hb
      · exact hne 10 (by decide) hb
      · exact hne 32 (by decide) hb
      · exact hne 9 (by decide) hb, hne 47 (by decide)⟩
    unfold tokenAt at hnumber
    rw [if_neg (hne 123 (by decide)), if_neg (hne 125 (by decide)), if_neg (hne 91 (by decide)),
      if_neg (hne 93 (by decide)), if_neg (hne 34 (by decide)), if_pos (Or.inl ⟨hlow, hhigh⟩)]
      at hnumber
    cases hnumber
  · rintro rfl
    exact absurd (hsolid (by unfold IsSolid IsBlank; decide)) (by decide)
  · rintro rfl
    exact absurd (hsolid (by unfold IsSolid IsBlank; decide)) (by decide)
  · rintro rfl
    exact absurd (hsolid (by unfold IsSolid IsBlank; decide)) (by decide)

variable {stringToDouble : Bytes → Option ℚ}

/-- A number that is consumed: the parser stands on its last digit. -/
theorem isNumeral_of_consumeNumber {s s' : JSONParser} {v : Value}
    (h : s.consumeNumber stringToDouble = .ok (v, s')) :
    ∃ numeral rest c, IsNumeral numeral ∧ s.rest = numeral ++ rest ∧
      mayFollowNumber (tokenOf (skipGap rest)) = true ∧
      numberValue stringToDouble numeral = some v ∧ s'.rest = c :: rest ∧ 48 ≤ c ∧ c ≤ 57 := by
  unfold consumeNumber at h
  dsimp only at h
  cases hread : s.readNumber with
  | mk ok next =>
      rw [hread] at h
      cases ok with
      | false => cases h
      | true =>
          obtain ⟨numeral, hnumeral, hrest, hindex⟩ := readNumber_sound hread
          have hlength : next.index_ - s.index_ = numeral.length := by omega
          obtain ⟨init, c, hlast, hc⟩ := exists_last_digit hnumeral
          rw [if_neg (by simp)] at h
          dsimp only at h
          rw [getNextToken_fst, hlength] at h
          by_cases hfollow : mayFollowNumber (tokenOf (skipGap next.rest)) = true
          swap
          · rw [Bool.not_eq_true] at hfollow
            rw [hfollow] at h
            cases h
          rw [hfollow, if_neg (by decide)] at h
          have htake : s.rest.take numeral.length = numeral := by rw [hrest, List.take_left]
          have hdrop : s.rest.drop (numeral.length - 1) = c :: next.rest := by
            rw [hrest, hlast, List.append_assoc]
            simp
          rw [htake] at h
          refine ⟨numeral, next.rest, c, hnumeral, hrest, hfollow, ?_⟩
          unfold numberValue
          by_cases hint : (stringToInt numeral).1 = true
          · rw [if_pos hint] at h ⊢
            obtain ⟨rfl, rfl⟩ := h
            exact ⟨rfl, hdrop, hc⟩
          · rw [if_neg hint] at h ⊢
            cases hdouble : stringToDouble numeral with
            | none =>
                rw [hdouble] at h
                cases h
            | some q =>
                rw [hdouble] at h
                obtain ⟨rfl, rfl⟩ := h
                exact ⟨rfl, hdrop, hc⟩

/-- A number in front of something that may follow is consumed. -/
theorem consumeNumber_of_isNumeral {s : JSONParser} {numeral rest : Bytes} {v : Value}
    (h : IsNumeral numeral) (hrest : s.rest = numeral ++ rest)
    (hfollow : mayFollowNumber (tokenOf (skipGap rest)) = true)
    (hvalue : numberValue stringToDouble numeral = some v) :
    ∃ s' c, s.consumeNumber stringToDouble = .ok (v, s') ∧ s'.rest = c :: rest ∧
      48 ≤ c ∧ c ≤ 57 := by
  obtain ⟨next, hread, hnext, -, hindex⟩ :=
    readNumber_complete h hrest (stopsNumber_of_mayFollow hfollow)
  have hlength : next.index_ - s.index_ = numeral.length := by omega
  obtain ⟨init, c, hlast, hc⟩ := exists_last_digit h
  have htake : s.rest.take numeral.length = numeral := by rw [hrest, List.take_left]
  have hdrop : s.rest.drop (numeral.length - 1) = c :: rest := by
    rw [hrest, hlast, List.append_assoc]
    simp
  unfold consumeNumber
  dsimp only
  rw [hread, if_neg (by simp)]
  dsimp only
  rw [getNextToken_fst, hlength, hnext, hfollow, if_neg (by decide), htake]
  unfold numberValue at hvalue
  by_cases hint : (stringToInt numeral).1 = true
  · rw [if_pos hint] at hvalue ⊢
    exact ⟨_, c, by rw [Option.some.inj hvalue], hdrop, hc⟩
  · rw [if_neg hint] at hvalue ⊢
    obtain ⟨q, hq, rfl⟩ := Option.map_eq_some_iff.mp hvalue
    rw [hq]
    exact ⟨_, c, rfl, hdrop, hc⟩

end TronWallet.Analysis
