import TronWallet.Model.Rlp

/-!
# What the RLP writer writes

The encoding of a byte string and of a list, given without a stream: a header that tells
the length, then the payload.  `encodeList` takes the encodings of its items.  The writer
is compared with them through one operation, `put`, which appends a complete item:
appending a byte string is `put` of its encoding (`append_eq_put`), and opening a list,
putting its items and letting the last one close it is `put` of the encoding of the list
(`putAll_appendList`).  Both hold whenever the writer does not throw, and it does not when
what it writes fits into a vector (`append_eq`, `appendList_bind_putAll`).
-/

set_option autoImplicit false

namespace TronWallet.Analysis

open TronWallet.Model

/-! ## Integers as bytes -/

/-- More rounds than the integer needs change nothing. -/
theorem bytesRequiredLoop_of_le {rounds n : ℕ} (h : n ≤ rounds) :
    bytesRequiredLoop rounds n = bytesRequired n := by
  unfold bytesRequired
  induction rounds using Nat.strong_induction_on generalizing n with
  | _ rounds ih =>
      cases rounds with
      | zero =>
          obtain rfl : n = 0 := by omega
          rfl
      | succ rounds =>
          cases n with
          | zero => simp [bytesRequiredLoop]
          | succ n =>
              simp only [bytesRequiredLoop, Nat.succ_ne_zero, if_false]
              have hdiv : (n + 1) / 256 ≤ n := by omega
              rw [ih rounds (by omega) (by omega), ih n (by omega) hdiv]

/-- Zero takes no bytes. -/
@[simp] theorem bytesRequired_zero : bytesRequired 0 = 0 := rfl

/-- One byte more than the integer without its last byte. -/
theorem bytesRequired_of_ne_zero {n : ℕ} (h : n ≠ 0) :
    bytesRequired n = bytesRequired (n / 256) + 1 := by
  obtain ⟨k, rfl⟩ := Nat.exists_eq_succ_of_ne_zero h
  have hdiv : (k + 1) / 256 ≤ k := by omega
  rw [← bytesRequiredLoop_of_le hdiv]
  rfl

/-- The bytes required are as many as the places of the integer in base 256. -/
theorem bytesRequired_le_iff {n k : ℕ} : bytesRequired n ≤ k ↔ n < 256 ^ k := by
  induction k generalizing n with
  | zero =>
      rw [Nat.pow_zero, Nat.lt_one_iff, Nat.le_zero]
      constructor
      · intro h
        by_contra hn
        rw [bytesRequired_of_ne_zero hn] at h
        omega
      · rintro rfl
        rfl
  | succ k ih =>
      by_cases hn : n = 0
      · subst hn
        simp
      · rw [bytesRequired_of_ne_zero hn, Nat.add_le_add_iff_right, ih, Nat.pow_succ,
          Nat.div_lt_iff_lt_mul (by decide)]

/-- A number takes as many bytes as asked for. -/
@[simp] theorem bigEndian_length (br n : ℕ) : (bigEndian br n).length = br := by
  induction br generalizing n with
  | zero => rfl
  | succ br ih => simp [bigEndian, ih]

/-- Reading the bytes back gives the integer, as far as the places go. -/
theorem fromBigEndian_bigEndian (br n : ℕ) :
    fromBigEndian (bigEndian br n) = n % 256 ^ br := by
  induction br generalizing n with
  | zero => simp [bigEndian, fromBigEndian, Nat.mod_one]
  | succ br ih =>
      have hstep : fromBigEndian (bigEndian (br + 1) n) =
          fromBigEndian (bigEndian br (n / 256)) * 256 + n % 256 := by
        simp [bigEndian, fromBigEndian]
      rw [hstep, ih, Nat.pow_succ', Nat.mod_mul, Nat.mul_comm]
      omega

/-- The bytes that a number requires are enough for it. -/
theorem fromBigEndian_bytesRequired (n : ℕ) :
    fromBigEndian (bigEndian (bytesRequired n) n) = n := by
  rw [fromBigEndian_bigEndian]
  exact Nat.mod_eq_of_lt (bytesRequired_le_iff.mp (Nat.le_refl _))

/-- The first byte written is not zero. -/
theorem bigEndian_head_ne_zero {n : ℕ} (h : n ≠ 0) :
    (bigEndian (bytesRequired n) n).getD 0 0 ≠ 0 := by
  induction n using Nat.strong_induction_on with
  | _ n ih =>
      rw [bytesRequired_of_ne_zero h, bigEndian]
      by_cases hdiv : n / 256 = 0
      · have hlt : n < 256 := by omega
        rw [hdiv, bytesRequired_zero, bigEndian, List.nil_append, List.getD_cons_zero]
        intro hz
        have hval := congrArg UInt8.toNat hz
        rw [UInt8.toNat_ofNat', Nat.mod_eq_of_lt hlt] at hval
        exact h hval
      · have hpos : 0 < (bigEndian (bytesRequired (n / 256)) (n / 256)).length := by
          rw [bigEndian_length, bytesRequired_of_ne_zero hdiv]
          omega
        have hhead := ih (n / 256) (by omega) hdiv
        rw [List.getD_eq_getElem?_getD] at hhead ⊢
        rwa [List.getElem?_append_left hpos]

/-! ## Encodings -/

/-- The header of an item whose payload has `n` bytes: one byte when `n` is below 56,
else the length of the length and the length. -/
def header (base n : ℕ) : Bytes :=
  if n < 56 then [UInt8.ofNat (base + n)]
  else UInt8.ofNat (base + 55 + bytesRequired n) :: bigEndian (bytesRequired n) n

/-- The encoding of a byte string. -/
def encodeData (b : Bytes) : Bytes :=
  match b with
  | [d] => if d.toNat < 0x80 then [d] else header 0x80 1 ++ [d]
  | b => header 0x80 b.length ++ b

/-- The encoding of a list, given those of its items. -/
def encodeList (items : List Bytes) : Bytes :=
  header 0xc0 items.flatten.length ++ items.flatten

/-- A byte string is encoded with a header, but for a single small byte. -/
theorem encodeData_eq (b : Bytes) :
    (∃ d, b = [d] ∧ d.toNat < 0x80 ∧ encodeData b = [d]) ∨
      ((∀ d, b = [d] → 0x80 ≤ d.toNat) ∧ encodeData b = header 0x80 b.length ++ b) := by
  match b with
  | [] => exact Or.inr ⟨fun d hd => (List.cons_ne_nil _ _ hd.symm).elim, rfl⟩
  | [d] =>
    by_cases hd : d.toNat < 0x80
    · exact Or.inl ⟨d, rfl, hd, by rw [encodeData, if_pos hd]⟩
    · refine Or.inr ⟨fun e he => ?_, ?_⟩
      · rw [← (List.cons.inj he).1]
        omega
      · rw [encodeData, if_neg hd]
        rfl
  | c :: d :: b => exact Or.inr ⟨fun e he => (List.cons_ne_nil _ _ (List.cons.inj he).2).elim, rfl⟩

/-- An item of a list is no longer than the encoding of the list. -/
theorem length_le_encodeList {e : Bytes} {items : List Bytes} (h : e ∈ items) :
    e.length ≤ (encodeList items).length := by
  have hflat : e.length ≤ items.flatten.length := (List.sublist_flatten_of_mem h).length_le
  unfold encodeList
  rw [List.length_append]
  omega

/-- A list is no shorter than its items. -/
theorem flatten_length_le_encodeList (items : List Bytes) :
    items.flatten.length ≤ (encodeList items).length := by
  unfold encodeList
  rw [List.length_append]
  omega

/-- A data item is no shorter than its bytes. -/
theorem length_le_encodeData (b : Bytes) : b.length ≤ (encodeData b).length := by
  rcases encodeData_eq b with ⟨d, rfl, -, h⟩ | ⟨-, h⟩
  · rw [h]
  · rw [h, List.length_append]
    omega

/-! ## The writer -/

/-- Appending a complete item. -/
def put (e : Bytes) (s : RLPStream) : Except Exn RLPStream :=
  RLPStream.noteAppended 1 { s with m_out := s.m_out ++ e }

/-- Writing an item appends it and counts it. -/
theorem put_eq (e : Bytes) (s : RLPStream) :
    put e s = RLPStream.noteAppendedLoop 1 (s.m_out ++ e) s.m_listStack := rfl

/-- Outside every list an item stands alone. -/
theorem put_empty (e : Bytes) : put e {} = .ok ⟨e, []⟩ := rfl

/-- No items are counted where none are appended. -/
@[simp] theorem noteAppended_zero (s : RLPStream) : RLPStream.noteAppended 0 s = .ok s := rfl

/-- Beside a single small byte, a byte string is appended with a header of its length. -/
theorem append_of_not_small {b : Bytes} (hb : ∀ d, b = [d] → 0x80 ≤ d.toNat) (s : RLPStream) :
    s.append b =
      if b.length < 56 then
        RLPStream.noteAppended 1 { s with m_out := s.m_out ++ [UInt8.ofNat (b.length + 0x80)] ++ b }
      else if bytesRequired b.length + 0xb7 > 0xff then .error .rlpException
      else RLPStream.noteAppended 1 { s with
        m_out := s.m_out ++ UInt8.ofNat (bytesRequired b.length + 0xb7) ::
          bigEndian (bytesRequired b.length) b.length ++ b } := by
  have hcount : c_rlpDataImmLenCount = 56 := rfl
  have hzero : c_rlpDataIndLenZero = 0xb7 := rfl
  have hstart : c_rlpDataImmLenStart = 0x80 := rfl
  unfold RLPStream.append
  split
  · next d =>
      have hd := hb d rfl
      rw [hstart, if_neg (by omega), if_pos (by simp)]
      rfl
  · rw [hcount, hstart, hzero]
    by_cases hlen : b.length < 56
    · rw [if_pos hlen, if_pos hlen]
      rfl
    · rw [if_neg hlen, if_neg hlen]
      simp only [RLPStream.pushCount]
      by_cases hbr : bytesRequired b.length + 0xb7 > 0xff
      · rw [if_pos hbr, if_pos hbr]
        rfl
      · rw [if_neg hbr, if_neg hbr]
        rfl

/-- Appending a byte string is appending its encoding. -/
theorem append_eq_put {b : Bytes} {s s' : RLPStream} (h : s.append b = .ok s') :
    put (encodeData b) s = .ok s' := by
  rcases encodeData_eq b with ⟨d, rfl, hd, henc⟩ | ⟨hb, henc⟩
  · rw [henc]
    rw [RLPStream.append, c_rlpDataImmLenStart, if_pos hd] at h
    exact h
  · rw [henc]
    rw [append_of_not_small hb] at h
    unfold header
    by_cases hlen : b.length < 56
    · rw [if_pos hlen] at h ⊢
      simpa [put, Nat.add_comm] using h
    · rw [if_neg hlen] at h ⊢
      by_cases hbr : bytesRequired b.length + 0xb7 > 0xff
      · rw [if_pos hbr] at h
        cases h
      · rw [if_neg hbr] at h
        simpa [put, Nat.add_comm] using h

/-- The length of the length takes at most eight bytes. -/
theorem bytesRequired_le_eight {n : ℕ} (h : n ≤ vectorMaxSize) : bytesRequired n ≤ 8 := by
  rw [bytesRequired_le_iff]
  unfold vectorMaxSize at h
  omega

/-- Appending a byte string that a vector can hold does not throw. -/
theorem append_eq {b : Bytes} (h : b.length ≤ vectorMaxSize) (s : RLPStream) :
    s.append b = put (encodeData b) s := by
  have hbytes := bytesRequired_le_eight h
  rcases encodeData_eq b with ⟨d, rfl, hd, henc⟩ | ⟨hb, henc⟩
  · rw [henc, RLPStream.append, c_rlpDataImmLenStart, if_pos hd]
    rfl
  · rw [henc, append_of_not_small hb]
    unfold header
    by_cases hlen : b.length < 56
    · rw [if_pos hlen, if_pos hlen]
      simp [put, Nat.add_comm]
    · rw [if_neg hlen, if_neg hlen, if_neg (by omega)]
      simp [put, Nat.add_comm]

/-- Appending the version number. -/
theorem appendInt_one_eq_put {s s' : RLPStream} (h : s.appendInt 1 = .ok s') :
    put [1] s = .ok s' := h

/-- Appending complete items one after the other. -/
def putAll (items : List Bytes) (s : RLPStream) : Except Exn RLPStream :=
  items.foldlM (fun s e => put e s) s

/-- Without items nothing is written. -/
@[simp] theorem putAll_nil (s : RLPStream) : putAll [] s = .ok s := rfl

/-- The first item is written first. -/
theorem putAll_cons (e : Bytes) (items : List Bytes) (s : RLPStream) :
    putAll (e :: items) s = (put e s).bind (putAll items) := rfl

/-- The first item is written first, whatever follows. -/
theorem putAll_cons_bind {β : Type} (e : Bytes) (items : List Bytes) (s : RLPStream)
    (k : RLPStream → Except Exn β) :
    (putAll (e :: items) s >>= k) = put e s >>= fun s => putAll items s >>= k :=
  bind_assoc (put e s) (putAll items) k

/-- While a list still waits for more than one item, putting one only counts it. -/
theorem put_of_two_le {e out : Bytes} {left p : ℕ} {rest : List (ℕ × ℕ)} :
    put e ⟨out, (left + 2, p) :: rest⟩ = .ok ⟨out ++ e, (left + 1, p) :: rest⟩ := by
  rw [put_eq, RLPStream.noteAppendedLoop, if_neg (by omega), if_pos (by omega)]
  rfl

/-- The last item of a list closes it: the header goes to where the list began. -/
theorem put_of_one_eq {e base body : Bytes} {rest : List (ℕ × ℕ)}
    (hbr : (body ++ e).length < 56 ∨ bytesRequired (body ++ e).length ≤ 8) :
    put e ⟨base ++ body, (1, base.length) :: rest⟩ =
      put (header 0xc0 (body ++ e).length ++ (body ++ e)) ⟨base, rest⟩ := by
  have hlen : (base ++ body ++ e).length - base.length = (body ++ e).length := by
    simp only [List.length_append]
    omega
  have htake : (base ++ body ++ e).take base.length = base := by
    rw [List.append_assoc, List.take_left']
    rfl
  have hdrop : (base ++ body ++ e).drop base.length = body ++ e := by
    rw [List.append_assoc, List.drop_left']
    rfl
  have hcount : c_rlpListImmLenCount = 56 := rfl
  have hzero : c_rlpListIndLenZero = 0xf7 := rfl
  have hstart : c_rlpListStart = 0xc0 := rfl
  rw [put_eq, RLPStream.noteAppendedLoop, if_neg (by omega)]
  simp only [Nat.sub_self, ne_eq, not_true_eq_false, if_false, hlen, htake, hdrop, hcount, hzero,
    hstart]
  rw [put_eq]
  unfold header
  by_cases hsmall : (body ++ e).length < 56
  · rw [if_pos hsmall, if_pos hsmall]
    simp
  · rw [if_neg hsmall, if_neg hsmall, if_pos (by omega)]
    simp

/-- A list that could be closed has a header. -/
theorem put_of_one {e base body : Bytes} {rest : List (ℕ × ℕ)} {s' : RLPStream}
    (h : put e ⟨base ++ body, (1, base.length) :: rest⟩ = .ok s') :
    put (header 0xc0 (body ++ e).length ++ (body ++ e)) ⟨base, rest⟩ = .ok s' := by
  by_cases hbr : (body ++ e).length < 56 ∨ bytesRequired (body ++ e).length ≤ 8
  · rw [← put_of_one_eq hbr]
    exact h
  · rw [not_or] at hbr
    have hlen : (base ++ body ++ e).length - base.length = (body ++ e).length := by
      simp only [List.length_append]
      omega
    have hcount : c_rlpListImmLenCount = 56 := rfl
    have hzero : c_rlpListIndLenZero = 0xf7 := rfl
    rw [put_eq, RLPStream.noteAppendedLoop, if_neg (by omega)] at h
    simp only [Nat.sub_self, ne_eq, not_true_eq_false, if_false, hlen, hcount, hzero] at h
    rw [if_neg hbr.1, if_neg (by omega)] at h
    cases h

/-- Putting all items an open list waits for closes it. -/
theorem putAll_of_open {items : List Bytes} {base body : Bytes} {rest : List (ℕ × ℕ)}
    {s' : RLPStream} (hne : items ≠ [])
    (h : putAll items ⟨base ++ body, (items.length, base.length) :: rest⟩ = .ok s') :
    put (header 0xc0 (body ++ items.flatten).length ++ (body ++ items.flatten)) ⟨base, rest⟩ =
      .ok s' := by
  induction items generalizing body with
  | nil => exact (hne rfl).elim
  | cons e items ih =>
      rw [putAll_cons] at h
      cases items with
      | nil =>
          cases hput : put e ⟨base ++ body, ([e].length, base.length) :: rest⟩ with
          | error x =>
              rw [hput] at h
              cases h
          | ok s =>
              rw [hput] at h
              cases h
              simpa using put_of_one hput
      | cons e' items =>
          rw [show (e :: e' :: items).length = items.length + 2 from rfl, put_of_two_le] at h
          have hrest : put (header 0xc0 ((body ++ e) ++ (e' :: items).flatten).length ++
              ((body ++ e) ++ (e' :: items).flatten)) ⟨base, rest⟩ = .ok s' :=
            ih (List.cons_ne_nil _ _) (by simpa [Except.bind, List.append_assoc] using h)
          simpa [List.append_assoc] using hrest

/-- The same as an equation, for a list that a vector can hold. -/
theorem putAll_of_open_eq {items : List Bytes} (base body : Bytes) (rest : List (ℕ × ℕ))
    (hne : items ≠ []) (hsize : (body ++ items.flatten).length ≤ vectorMaxSize) :
    putAll items ⟨base ++ body, (items.length, base.length) :: rest⟩ =
      put (header 0xc0 (body ++ items.flatten).length ++ (body ++ items.flatten))
        ⟨base, rest⟩ := by
  induction items generalizing body with
  | nil => exact (hne rfl).elim
  | cons e items ih =>
      rw [putAll_cons]
      cases items with
      | nil =>
          rw [List.flatten_cons, List.flatten_nil, List.append_nil] at hsize ⊢
          rw [show [e].length = 1 from rfl, put_of_one_eq (Or.inr (bytesRequired_le_eight hsize))]
          cases put (header 0xc0 (body ++ e).length ++ (body ++ e)) ⟨base, rest⟩ <;> rfl
      | cons e' items =>
          have hflat : body ++ (e :: e' :: items).flatten =
              (body ++ e) ++ (e' :: items).flatten := by simp
          rw [hflat] at hsize ⊢
          rw [show (e :: e' :: items).length = items.length + 2 from rfl, put_of_two_le,
            ← ih (body ++ e) (List.cons_ne_nil _ _) hsize, List.append_assoc]
          rfl

/-- Opening a list and putting all its items is putting the encoding of the list. -/
theorem putAll_appendList (items : List Bytes) {s s₁ s' : RLPStream}
    (hopen : s.appendList items.length = .ok s₁) (h : putAll items s₁ = .ok s') :
    put (encodeList items) s = .ok s' := by
  unfold RLPStream.appendList at hopen
  cases items with
  | nil =>
      cases h
      simpa [RLPStream.appendListBytes, RLPStream.appendRaw, c_rlpListImmLenCount, c_rlpListStart,
        c_rlpMaxLengthBytes, encodeList, header, put] using hopen
  | cons e items =>
      rw [if_pos (by simp)] at hopen
      cases hopen
      have hbase : putAll (e :: items) ⟨s.m_out ++ [], ((e :: items).length, s.m_out.length) ::
          s.m_listStack⟩ = .ok s' := by
        rw [List.append_nil]
        exact h
      simpa [encodeList] using putAll_of_open (List.cons_ne_nil _ _) hbase

/-- The same as an equation, for a list that a vector can hold. -/
theorem appendList_bind_putAll (items : List Bytes) (s : RLPStream)
    (hsize : items.flatten.length ≤ vectorMaxSize) :
    (s.appendList items.length >>= putAll items) = put (encodeList items) s := by
  unfold RLPStream.appendList
  cases items with
  | nil =>
      have happend : RLPStream.appendListBytes [] s = put (encodeList []) s := by
        simp [RLPStream.appendListBytes, RLPStream.appendRaw, c_rlpListImmLenCount, c_rlpListStart,
          c_rlpMaxLengthBytes, encodeList, header, put]
      rw [if_neg (by simp), happend]
      cases put (encodeList []) s <;> rfl
  | cons e items =>
      rw [if_pos (by simp)]
      have hopen := putAll_of_open_eq s.m_out [] s.m_listStack
        (List.cons_ne_nil e items) (by simpa using hsize)
      rw [List.append_nil, List.nil_append] at hopen
      exact hopen

/-- Writing the elements of a table one after the other is putting their encodings. -/
theorem foldlM_eq_putAll {α : Type} {f : RLPStream → α → Except Exn RLPStream}
    (enc : α → Bytes) (hf : ∀ {s x s'}, f s x = .ok s' → put (enc x) s = .ok s') {l : List α}
    {s s' : RLPStream} (h : l.foldlM f s = .ok s') : putAll (l.map enc) s = .ok s' := by
  induction l generalizing s with
  | nil => exact h
  | cons x l ih =>
      rw [List.foldlM_cons] at h
      cases hx : f s x with
      | error e =>
          rw [hx] at h
          cases h
      | ok s₁ =>
          rw [hx] at h
          rw [List.map_cons, putAll_cons, hf hx]
          exact ih h

/-- The same as an equation. -/
theorem foldlM_eq_putAll_map {α : Type} {f : RLPStream → α → Except Exn RLPStream}
    (enc : α → Bytes) {l : List α} (hf : ∀ x ∈ l, ∀ s, f s x = put (enc x) s) (s : RLPStream) :
    l.foldlM f s = putAll (l.map enc) s := by
  induction l generalizing s with
  | nil => rfl
  | cons x l ih =>
      rw [List.foldlM_cons, hf x List.mem_cons_self, List.map_cons, putAll_cons]
      exact congrArg (fun g => (put (enc x) s).bind g)
        (funext fun s' => ih (fun y hy => hf y (List.mem_cons_of_mem _ hy)) s')

/-- A stream that starts empty and ends complete holds the one item that was put. -/
theorem out_of_put {e text : Bytes} {s' : RLPStream} (h : put e {} = .ok s')
    (hout : s'.out = .ok text) : text = e ∧ text.length ≤ vectorMaxSize := by
  cases h
  unfold RLPStream.out at hout
  rw [if_neg (by simp)] at hout
  rw [List.nil_append] at hout
  by_cases hsize : vectorMaxSize < e.length
  · rw [if_pos hsize] at hout
    cases hout
  · rw [if_neg hsize] at hout
    cases hout
    exact ⟨rfl, Nat.le_of_not_lt hsize⟩

end TronWallet.Analysis
