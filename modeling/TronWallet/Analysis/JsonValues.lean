import TronWallet.Analysis.JsonParsing

/-!
# The values a JSON text can stand for

Whatever the bytes of a text are, the strings that are read from it are UTF-8 of characters
of Unicode, the integers fit into 32 bits, each double is the value of a numeral in the text,
the dictionaries are in order and the nesting is bounded (`Reads.wellFormed`).
-/

set_option autoImplicit false

namespace TronWallet.Analysis

open TronWallet.Lib TronWallet.Model JSONParser

/-! ## Well-formed values -/

/-- A value with its strings, its keys and its real numbers as they are to be, its integers in
32 bits, its dictionaries in order and its brackets nested less deep than given. -/
inductive WellFormed (text : Bytes → Prop) (real : ℚ → Prop) : ℕ → Value → Prop
  | null {n : ℕ} : WellFormed text real n .null
  | boolean {n : ℕ} (b : Bool) : WellFormed text real n (.boolean b)
  | integer {n : ℕ} {i : ℤ} (low : -2 ^ 31 ≤ i) (high : i < 2 ^ 31) :
      WellFormed text real n (.integer i)
  | double {n : ℕ} {q : ℚ} (number : real q) : WellFormed text real n (.double q)
  | string {n : ℕ} {s : Bytes} (characters : text s) : WellFormed text real n (.string s)
  | list {n : ℕ} {l : List Value} (items : ∀ v ∈ l, WellFormed text real n v) :
      WellFormed text real (n + 1) (.list l)
  | dictionary {n : ℕ} {d : Dictionary} (sorted : d.Sorted) (keys : ∀ e ∈ d, text e.1)
      (entries : ∀ e ∈ d, WellFormed text real n e.2) : WellFormed text real (n + 1) (.dictionary d)

/-- Weaker conditions on the parts are met as well. -/
theorem WellFormed.imp {text text' : Bytes → Prop} {real real' : ℚ → Prop} {n : ℕ} {v : Value}
    (h : WellFormed text real n v) (htext : ∀ s, text s → text' s)
    (hreal : ∀ q, real q → real' q) : WellFormed text' real' n v := by
  induction h with
  | null => exact .null
  | boolean b => exact .boolean b
  | integer low high => exact .integer low high
  | double number => exact .double (hreal _ number)
  | string characters => exact .string (htext _ characters)
  | list _ ih => exact .list ih
  | dictionary sorted keys _ ih => exact .dictionary sorted (fun e he => htext _ (keys e he)) ih

/-! ## Texts -/

/-- The UTF-8 of characters the reader lets through. -/
def ValidText (s : Bytes) : Prop :=
  ∃ cs : List Char, (∀ c ∈ cs, isValidCharacter c.toNat = true) ∧ s = utf8.encodeAll cs

/-- The empty text is valid. -/
theorem validText_nil : ValidText [] := ⟨[], fun _ h => absurd h List.not_mem_nil, rfl⟩

/-- Two valid texts in a row are valid. -/
theorem ValidText.append {s t : Bytes} (hs : ValidText s) (ht : ValidText t) :
    ValidText (s ++ t) := by
  obtain ⟨cs, hcs, rfl⟩ := hs
  obtain ⟨ds, hds, rfl⟩ := ht
  refine ⟨cs ++ ds, fun c hc => ?_, (utf8.encodeAll_append cs ds).symm⟩
  exact (List.mem_append.mp hc).elim (hcs c) (hds c)

/-- A code point that passes the test of the reader is a character. -/
theorem exists_char {n : ℕ} (h : isValidCodepoint n = true) : ∃ c : Char, c.toNat = n :=
  ⟨Char.ofNat n, toNat_of_validCodepoint (by rw [validCodepoint, if_pos h])⟩

/-- A character that is let through is a valid text. -/
theorem validText_codePoint {n : ℕ} (h : isValidCharacter n = true) :
    ValidText (cbu8AppendUnsafe n) := by
  obtain ⟨c, rfl⟩ := exists_char (isValidCodepoint_of_isValidCharacter h)
  refine ⟨[c], fun d hd => ?_, (List.append_nil _).symm⟩
  rw [List.mem_singleton.mp hd]
  exact h

/-- The bytes of a code point other than NUL are no NULs. -/
theorem zero_notMem_cbu8AppendUnsafe {n : ℕ} (h : isValidCodepoint n = true) (hn : n ≠ 0) :
    0 ∉ cbu8AppendUnsafe n := by
  have hvalid := of_decide_eq_true h
  have hbyte : ∀ m, 0 < m → m < 256 → (0 : UInt8) ≠ UInt8.ofNat m := by
    intro m hpos hlt heq
    have htoNat := congrArg UInt8.toNat heq
    rw [toNat_utf8Byte hlt] at htoNat
    exact absurd htoNat (by change 0 ≠ m; omega)
  unfold cbu8AppendUnsafe
  split_ifs <;> simp only [List.mem_cons, List.not_mem_nil, or_false, not_or]
  · exact hbyte _ (by omega) (by omega)
  · exact ⟨hbyte _ (by omega) (by omega), hbyte _ (by omega) (by omega)⟩
  · exact ⟨hbyte _ (by omega) (by omega), hbyte _ (by omega) (by omega),
      hbyte _ (by omega) (by omega)⟩
  · exact ⟨hbyte _ (by omega) (by omega), hbyte _ (by omega) (by omega),
      hbyte _ (by omega) (by omega), hbyte _ (by omega) (by omega)⟩

/-- As a C string a code point is appended whole, unless it is NUL. -/
theorem cStr_cbu8AppendUnsafe {n : ℕ} (h : isValidCodepoint n = true) :
    cStr (cbu8AppendUnsafe n) = if n = 0 then [] else cbu8AppendUnsafe n := by
  split_ifs with hn
  · rw [hn]
    rfl
  · unfold cStr
    rw [List.takeWhile_eq_self_iff]
    intro c hc
    rw [decide_eq_true_eq]
    rintro rfl
    exact zero_notMem_cbu8AppendUnsafe h hn hc

/-- So is what is left of it in front of a NUL. -/
theorem validText_cStr_codePoint {n : ℕ} (h : isValidCharacter n = true) :
    ValidText (cStr (cbu8AppendUnsafe n)) := by
  rw [cStr_cbu8AppendUnsafe (isValidCodepoint_of_isValidCharacter h)]
  split_ifs
  · exact validText_nil
  · exact validText_codePoint h

/-- Nothing but valid text is appended. -/
def AppendsValid {ε : Type} (result : Except ε (Bytes × ℕ)) : Prop :=
  ∀ appended steps, result = .ok (appended, steps) → ValidText appended

/-- An error appends nothing. -/
theorem AppendsValid.error {ε : Type} (e : ε) : AppendsValid (.error e) :=
  fun _ _ h => nomatch h

/-- A result appends the text it holds. -/
theorem AppendsValid.ok {ε : Type} {appended : Bytes} (h : ValidText appended) (steps : ℕ) :
    AppendsValid (.ok (appended, steps) : Except ε (Bytes × ℕ)) := by
  intro appended' steps' heq
  obtain ⟨rfl, -⟩ := heq
  exact h

/-- Both branches of a test append valid texts. -/
theorem AppendsValid.ite {ε : Type} {c : Prop} [Decidable c] {a b : Except ε (Bytes × ℕ)}
    (ha : c → AppendsValid a) (hb : ¬c → AppendsValid b) :
    AppendsValid (if c then a else b) := by
  by_cases h : c
  · rw [if_pos h]
    exact ha h
  · rw [if_neg h]
    exact hb h

/-- What the test does not turn down is a character. -/
theorem isValidCharacter_of_not {n : ℕ} (h : ¬(!isValidCharacter n) = true) :
    isValidCharacter n = true := by
  rw [Bool.not_eq_true', Bool.not_eq_false] at h
  exact h

/-- What a `\u` stands for is a valid text. -/
theorem appendsValid_decodeUTF16 (text : Bytes) : AppendsValid (decodeUTF16 text) := by
  unfold decodeUTF16
  dsimp only
  refine .ite (fun _ => .error _) fun _ => .ite (fun _ => .error _) fun _ => .ite (fun _ => ?_)
    fun _ => .ite (fun _ => .error _) fun h =>
      .ok (validText_cStr_codePoint (isValidCharacter_of_not h)) _
  -- A surrogate, and the one behind it.
  exact .ite (fun _ => .error _) fun _ => .ite (fun _ => .error _) fun _ =>
    .ite (fun _ => .error _) fun _ => .ite (fun _ => .error _) fun _ =>
    .ite (fun _ => .error _) fun _ => .ite (fun _ => .error _) fun _ =>
    .ite (fun _ => .error _) fun h => .ok (validText_cStr_codePoint (isValidCharacter_of_not h)) _

/-- What an escape sequence stands for is valid. -/
theorem appendsValid_consumeEscape (text : Bytes) : AppendsValid (consumeEscape text) := by
  have hsimple : ∀ n : ℕ, n < 0x80 →
      AppendsValid (.ok ([UInt8.ofNat n], 1) : Except (ℤ × ℕ) (Bytes × ℕ)) := by
    intro n hn
    have hvalid := validText_codePoint (n := n) (decide_eq_true (Or.inl (by omega)))
    rw [cbu8AppendUnsafe, if_pos (by omega)] at hvalid
    exact .ok hvalid 1
  cases text with
  | nil => exact .error _
  | cons c more =>
      unfold consumeEscape
      dsimp only
      refine .ite (fun _ => ?_) fun _ => .ite (fun _ => .ite (fun _ => .error _) fun _ => ?_)
        fun _ => .ite (fun _ => hsimple 34 (by decide)) fun _ =>
        .ite (fun _ => hsimple 92 (by decide)) fun _ => .ite (fun _ => hsimple 47 (by decide))
        fun _ => .ite (fun _ => hsimple 8 (by decide)) fun _ =>
        .ite (fun _ => hsimple 12 (by decide)) fun _ => .ite (fun _ => hsimple 10 (by decide))
        fun _ => .ite (fun _ => hsimple 13 (by decide)) fun _ =>
        .ite (fun _ => hsimple 9 (by decide)) fun _ => .ite (fun _ => hsimple 11 (by decide))
        fun _ => .error _
      · refine .ite (fun _ => .error _) fun _ => .ite (fun _ => .error _) fun _ =>
          .ite (fun _ => .error _) fun h => .ok ?_ 3
        rw [appendCodePoint_eq]
        exact validText_codePoint (isValidCharacter_of_not h)
      · have hunits := appendsValid_decodeUTF16 more
        cases hdecode : decodeUTF16 more with
        | error steps => exact .error _
        | ok p => exact .ok (hunits p.1 p.2 hdecode) _

/-- A string that is read is valid. -/
theorem ReadsString.validText {text string rest : Bytes} (h : ReadsString text string rest) :
    ValidText string := by
  induction h with
  | close => exact validText_nil
  | character valid _ _ _ ih => exact (validText_codePoint valid).append ih
  | escape sequence _ ih => exact (appendsValid_consumeEscape _ _ _ sequence).append ih

/-! ## Values -/

/-- The entries of a dictionary that is built are among those given and those there were. -/
theorem mem_dictionaryOf {entries : List (Bytes × Value)} {dict : Dictionary}
    {e : Bytes × Value} (h : e ∈ dictionaryOf entries dict) : e ∈ entries ∨ e ∈ dict := by
  induction entries generalizing dict with
  | nil => exact Or.inr h
  | cons p entries ih =>
      rcases ih h with h | h
      · exact Or.inl (List.mem_cons_of_mem _ h)
      · rcases Dictionary.mem_setWithoutPathExpansion h with rfl | h
        · exact Or.inl List.mem_cons_self
        · exact Or.inr h

/-- A dictionary that is built is in the order of its keys. -/
theorem sorted_dictionaryOf (entries : List (Bytes × Value)) {dict : Dictionary}
    (h : dict.Sorted) : (dictionaryOf entries dict).Sorted := by
  induction entries generalizing dict with
  | nil => exact h
  | cons p entries ih => exact ih (Dictionary.sorted_setWithoutPathExpansion h)

/-- A number that stands in the text. -/
def NumberOf (stringToDouble : Bytes → Option ℚ) (text : Bytes) (q : ℚ) : Prop :=
  ∃ numeral, numeral <:+: text ∧ IsNumeral numeral ∧ stringToDouble numeral = some q

/-- What a numeral of the text stands for. -/
theorem wellFormed_numberValue {whole numeral : Bytes} {stringToDouble : Bytes → Option ℚ} {n : ℕ}
    {v : Value} (hnumeral : IsNumeral numeral) (hpart : numeral <:+: whole)
    (h : numberValue stringToDouble numeral = some v) :
    WellFormed ValidText (NumberOf stringToDouble whole) n v := by
  unfold numberValue at h
  split_ifs at h with hint
  · obtain ⟨-, hlow, hhigh⟩ := decimalNumber_of_invoke (T := intTraits) rfl (by decide) (by decide)
      (Prod.ext hint rfl : stringToInt numeral = (true, (stringToInt numeral).2))
    have hmax : intTraits.max = 2 ^ 31 - 1 := rfl
    cases h
    exact .integer hlow (by omega)
  · obtain ⟨q, hq, rfl⟩ := Option.map_eq_some_iff.mp h
    exact .double ⟨numeral, hpart, hnumeral, hq⟩

/-- **What is read is well formed**, part by part, for a part of a whole text. -/
theorem Reads.wellFormed {stringToDouble : Bytes → Option ℚ} {depth : ℕ} {whole text rest : Bytes}
    {phrase : Phrase} (h : Reads stringToDouble depth text phrase rest) (hpart : text <:+: whole) :
    match phrase with
    | .value v => WellFormed ValidText (NumberOf stringToDouble whole)
        (kStackMaxDepth - 1 - depth) v
    | .items l => ∀ v ∈ l, WellFormed ValidText (NumberOf stringToDouble whole)
        (kStackMaxDepth - 1 - depth) v
    | .entries d => ∀ e ∈ d, ValidText e.1 ∧ WellFormed ValidText
        (NumberOf stringToDouble whole) (kStackMaxDepth - 1 - depth) e.2 := by
  induction h with
  | string characters => exact .string characters.validText
  | @number depth numeral rest v hnumeral _ value =>
      exact wellFormed_numberValue hnumeral
        ((List.prefix_append numeral rest).isInfix.trans hpart) value
  | @literal depth word rest v hword =>
      simp only [literals, List.mem_cons, List.not_mem_nil, or_false, Prod.mk.injEq] at hword
      rcases hword with ⟨-, rfl⟩ | ⟨-, rfl⟩ | ⟨-, rfl⟩
      · exact .boolean true
      · exact .boolean false
      · exact .null
  | @list depth text rest l nesting _ ih =>
      have hlevel : kStackMaxDepth - 1 - depth = kStackMaxDepth - 1 - (depth + 1) + 1 := by omega
      have hbody : skipGap text <:+: whole :=
        ((skipGap_suffix text).trans (List.suffix_cons 91 text)).isInfix.trans hpart
      dsimp only at ih ⊢
      rw [hlevel]
      exact .list (ih hbody)
  | @dictionary depth text rest d nesting _ ih =>
      have hlevel : kStackMaxDepth - 1 - depth = kStackMaxDepth - 1 - (depth + 1) + 1 := by omega
      have hbody : skipGap text <:+: whole :=
        ((skipGap_suffix text).trans (List.suffix_cons 123 text)).isInfix.trans hpart
      have hmem : ∀ e ∈ dictionaryOf d [], e ∈ d := fun e he =>
        (mem_dictionaryOf he).resolve_right List.not_mem_nil
      dsimp only at ih ⊢
      rw [hlevel]
      exact .dictionary (sorted_dictionaryOf d List.Pairwise.nil)
        (fun e he => (ih hbody e (hmem e he)).1) fun e he => (ih hbody e (hmem e he)).2
  | listEnd => exact fun v hv => absurd hv List.not_mem_nil
  | @item depth text behind next rest v l first separator _ ih ih' =>
      have hnext : next <:+: whole :=
        (separator.suffix.trans first.suffix).isInfix.trans hpart
      intro v hv
      rcases List.mem_cons.mp hv with rfl | hv
      · exact ih hpart
      · exact ih' hnext v hv
  | dictionaryEnd => exact fun e he => absurd he List.not_mem_nil
  | @entry depth text key behindKey valueText behind next rest v d name colon first separator _ ih
      ih' =>
      have hvalue : valueText <:+ text := ((List.suffix_cons 58 valueText).trans
        (colon ▸ skipGap_suffix behindKey)).trans name.suffix
      have hfirst : skipGap valueText <:+: whole :=
        (((skipGap_suffix valueText).trans hvalue).trans (List.suffix_cons 34 text)).isInfix.trans
          hpart
      have hnext : next <:+: whole :=
        (separator.suffix.trans first.suffix).isInfix.trans hfirst
      intro e he
      rcases List.mem_cons.mp he with rfl | he
      · exact ⟨name.validText, ih hfirst⟩
      · exact ih' hnext e he

end TronWallet.Analysis
