import Mathlib.Data.List.Induction
import TronWallet.Analysis.RlpReader

/-!
# Whole RLP texts

An RLP text is a tree of byte strings and lists.  `writeTree` writes one with the operations
of the stream, and `readTree` takes one apart with those of the reader, each node constructed
`VeryStrict` as every item of a loop is.

The reader is strict: it accepts the text of each tree and no other text, so a tree has one
text only (`readTree_eq_ok_iff`), and it is the one the stream writes
(`writeTree_out_eq_ok_iff`).
-/

set_option autoImplicit false

namespace TronWallet.Analysis

open TronWallet.Model

/-! ## Trees -/

/-- What an RLP text holds. -/
inductive RlpTree where
  | data (b : Bytes)
  | list (items : List RlpTree)

mutual

/-- The text of a tree. -/
def encodeTree : RlpTree → Bytes
  | .data b => encodeData b
  | .list l => encodeList (encodeTrees l)

/-- The texts of the items of a list. -/
def encodeTrees : List RlpTree → List Bytes
  | [] => []
  | t :: l => encodeTree t :: encodeTrees l

end

mutual

/-- How deep the lists of a tree are nested, its leaves included. -/
def depth : RlpTree → ℕ
  | .data _ => 1
  | .list l => depths l + 1

/-- The depth of the deepest item. -/
def depths : List RlpTree → ℕ
  | [] => 0
  | t :: l => max (depth t) (depths l)

end

mutual

/-- A tree is written with the operations of the stream. -/
def writeTree : RlpTree → RLPStream → Except Exn RLPStream
  | .data b, s => s.append b
  | .list l, s => do writeTrees l (← s.appendList l.length)

/-- The items of a list are written one after the other. -/
def writeTrees : List RlpTree → RLPStream → Except Exn RLPStream
  | [], s => .ok s
  | t :: l, s => do writeTrees l (← writeTree t s)

end

/-- A text is read with the operations of the reader, lists nested as deep as given. -/
def readTree : ℕ → Bytes → Except Exn RlpTree
  | 0, _ => .error .stillLooping
  | rounds + 1, d => do
    RLP.check true true d
    if RLP.isList d then .ok (.list (← (← RLP.toList d).mapM (readTree rounds)))
    else if RLP.isData d then .ok (.data (← RLP.toString d))
    else .error .badCast

/-! ## What the reader accepts -/

/-- The bytes of an integer are those of it, when as many are taken. -/
theorem bigEndian_fromBigEndian (b : Bytes) : bigEndian b.length (fromBigEndian b) = b := by
  induction b using List.reverseRecOn with
  | nil => rfl
  | append_singleton b c ih =>
      have hc := c.toNat_lt
      have hvalue : fromBigEndian (b ++ [c]) = fromBigEndian b * 256 + c.toNat := by
        simp [fromBigEndian]
      have hlow : UInt8.ofNat (fromBigEndian b * 256 + c.toNat) = c := by
        rw [← UInt8.toNat_inj, UInt8.toNat_ofNat']
        omega
      rw [List.length_append, List.length_singleton, bigEndian, hvalue, hlow,
        show (fromBigEndian b * 256 + c.toNat) / 256 = fromBigEndian b by omega, ih]

/-- The first byte of a number is its highest one. -/
theorem fromBigEndian_cons (c : UInt8) (b : Bytes) :
    fromBigEndian (c :: b) = c.toNat * 256 ^ b.length + fromBigEndian b := by
  induction b using List.reverseRecOn with
  | nil => simp [fromBigEndian]
  | append_singleton b d ih =>
      have happend : ∀ b : Bytes, fromBigEndian (b ++ [d]) = fromBigEndian b * 256 + d.toNat := by
        intro b
        simp [fromBigEndian]
      rw [← List.cons_append, happend, happend, ih, List.length_append, List.length_singleton,
        Nat.pow_succ, Nat.add_mul, Nat.mul_assoc, Nat.add_assoc]

/-- An integer whose first byte is not zero requires all its bytes. -/
theorem bytesRequired_fromBigEndian {c : UInt8} (hc : c ≠ 0) (b : Bytes) :
    bytesRequired (fromBigEndian (c :: b)) = (c :: b).length := by
  have hfits : fromBigEndian (c :: b) < 256 ^ (c :: b).length := by
    rw [← bigEndian_fromBigEndian (c :: b), fromBigEndian_bigEndian, bigEndian_length]
    exact Nat.mod_lt _ (Nat.pow_pos (by decide))
  have hpos : 0 < c.toNat := by
    rcases Nat.eq_zero_or_pos c.toNat with hzero | hpos
    · exact absurd (UInt8.toNat_inj.mp hzero) hc
    · exact hpos
  have hlarge : 256 ^ b.length ≤ fromBigEndian (c :: b) := by
    rw [fromBigEndian_cons]
    have hmul := Nat.mul_le_mul_right (256 ^ b.length) hpos
    omega
  have hle := bytesRequired_le_iff.mpr hfits
  have hge : ¬bytesRequired (fromBigEndian (c :: b)) ≤ b.length := by
    rw [bytesRequired_le_iff]
    omega
  rw [List.length_cons] at hle ⊢
  omega

/-- The length behind the first byte is written as the reader wants it. -/
theorem eq_of_longLength {lengthSize n : ℕ} {c : UInt8} {rest : Bytes} (hpos : 0 < lengthSize)
    (h : RLP.longLength lengthSize (c :: rest) = .ok n) :
    56 ≤ n ∧ bytesRequired n = lengthSize ∧
      rest = bigEndian lengthSize n ++ rest.drop lengthSize := by
  have hcount : c_rlpDataImmLenCount = 56 := rfl
  unfold RLP.longLength at h
  rw [List.length_cons, List.getD_cons_succ, List.drop_one, List.tail_cons] at h
  by_cases hshort : rest.length + 1 ≤ lengthSize
  · rw [if_pos hshort] at h
    cases h
  rw [if_neg hshort] at h
  by_cases hzero : rest.getD 0 0 = 0
  · rw [if_pos hzero] at h
    cases h
  rw [if_neg hzero] at h
  by_cases hmany : 8 < lengthSize
  · rw [if_pos hmany] at h
    cases h
  rw [if_neg hmany] at h
  dsimp only at h
  by_cases hsmall : fromBigEndian (rest.take lengthSize) < c_rlpDataImmLenCount
  · rw [if_pos hsmall] at h
    cases h
  rw [if_neg hsmall] at h
  by_cases hlarge : sizeMax - 0x100 ≤ fromBigEndian (rest.take lengthSize)
  · rw [if_pos hlarge] at h
    cases h
  rw [if_neg hlarge] at h
  obtain rfl := Except.ok.inj h
  have hlength : (rest.take lengthSize).length = lengthSize := by
    rw [List.length_take]
    omega
  obtain ⟨d, ds, htake⟩ :=
    List.exists_cons_of_length_pos (by omega : 0 < (rest.take lengthSize).length)
  have hd : d ≠ 0 := by
    rintro rfl
    apply hzero
    rw [← List.take_append_drop lengthSize rest, htake, List.cons_append, List.getD_cons_zero]
  refine ⟨by omega, ?_, ?_⟩
  · rw [htake, bytesRequired_fromBigEndian hd, ← htake, hlength]
  · have hbytes := bigEndian_fromBigEndian (rest.take lengthSize)
    rw [hlength] at hbytes
    rw [hbytes, List.take_append_drop]

/-- A text that passes the tests of the constructor is as long as it says. -/
theorem actualSize_of_check {d : Bytes} (h : RLP.check true true d = .ok ()) :
    RLP.actualSize d = .ok d.length := by
  unfold RLP.check at h
  obtain ⟨size, hsize, htests⟩ := bind_eq_ok h
  by_cases hbig : true = true ∧ size < d.length
  · rw [if_pos hbig] at htests
    cases htests
  rw [if_neg hbig] at htests
  by_cases hsmall : true = true ∧ d.length < size
  · rw [if_pos hsmall] at htests
    cases htests
  rw [hsize]
  congr 1
  simp only [true_and] at hbig hsmall
  omega

/-- A header with its length in front. -/
theorem header_of_long {base n : ℕ} (hn : 56 ≤ n) :
    header base n = UInt8.ofNat (base + 55 + bytesRequired n) :: bigEndian (bytesRequired n) n := by
  rw [header, if_neg (by omega)]

/-- A byte is the one of its value. -/
theorem eq_ofNat {c : UInt8} {n : ℕ} (h : c.toNat = n) : c = UInt8.ofNat n := by
  rw [← h, UInt8.ofNat_toNat]

/-- A long item is its header and its payload. -/
theorem eq_of_long (base : ℕ) {lengthSize n : ℕ} {c : UInt8} {rest : Bytes}
    (hpos : 0 < lengthSize) (hc : c.toNat = base + 55 + lengthSize)
    (hlength : RLP.longLength lengthSize (c :: rest) = .ok n)
    (hsize : 1 + lengthSize + n = (c :: rest).length) :
    c :: rest = header base (rest.drop lengthSize).length ++ rest.drop lengthSize ∧
      56 ≤ (rest.drop lengthSize).length := by
  obtain ⟨hn, hrequired, hrest⟩ := eq_of_longLength hpos hlength
  have hpayload : (rest.drop lengthSize).length = n := by
    rw [List.length_drop]
    rw [List.length_cons] at hsize
    omega
  rw [hpayload, header_of_long hn, hrequired, List.cons_append, ← hrest, ← eq_ofNat hc]
  exact ⟨rfl, hn⟩

/-- **What the reader takes for one whole item is written as the writer does it.** -/
theorem encoded_of_check {d : Bytes} (hne : d ≠ []) (h : RLP.check true true d = .ok ()) :
    (RLP.isList d = false ∧ ∃ b, d = encodeData b) ∨
      (RLP.isList d = true ∧ ∃ p, d = header 0xc0 p.length ++ p) := by
  have hstart : c_rlpDataImmLenStart = 0x80 := rfl
  have hlist : c_rlpListStart = 0xc0 := rfl
  have hind : c_rlpDataIndLenZero = 0xb7 := rfl
  have hlind : c_rlpListIndLenZero = 0xf7 := rfl
  have hsize := actualSize_of_check h
  obtain ⟨c, rest, rfl⟩ := List.exists_cons_of_ne_nil hne
  have hc := c.toNat_lt
  unfold RLP.actualSize at hsize
  rw [if_neg hne] at hsize
  by_cases hbyte : c.toNat < 0x80
  · -- A single byte.
    rw [if_pos (by rw [RLP.isSingleByte]; exact decide_eq_true hbyte)] at hsize
    have hone := Except.ok.inj hsize
    rw [List.length_cons] at hone
    obtain rfl := List.length_eq_zero_iff.mp (by omega : rest.length = 0)
    refine Or.inl ⟨decide_eq_false (by rw [hlist]; omega), [c], ?_⟩
    rw [encodeData, if_pos hbyte]
  have hsingle : RLP.isSingleByte (c :: rest) = false := decide_eq_false (by rw [hstart]; omega)
  rw [if_neg (by rw [hsingle]; decide)] at hsize
  obtain ⟨n, hlength, hsum⟩ := bind_eq_ok hsize
  replace hsum := Except.ok.inj hsum
  obtain ⟨_, hgood, hlength⟩ := bind_eq_ok hlength
  rw [if_neg (by rw [hstart]; exact hbyte)] at hlength
  rw [RLP.payloadOffset, if_neg (by rw [hsingle]; decide), RLP.lengthSize, hlist, hind,
    hlind] at hsum
  rw [hind, hlist, hlind, hstart] at hlength
  by_cases h₁ : c.toNat ≤ 0xb7
  · -- A short byte string.
    rw [if_pos h₁] at hlength
    rw [if_neg (by omega), if_neg (by omega), List.length_cons] at hsum
    have hn := Except.ok.inj hlength
    have hheader : c :: rest = header 0x80 rest.length ++ rest := by
      rw [header, if_pos (by omega), List.singleton_append,
        ← eq_ofNat (show c.toNat = 0x80 + rest.length by omega)]
    refine Or.inl ⟨decide_eq_false (by rw [hlist]; omega), rest, ?_⟩
    rcases encodeData_eq rest with ⟨d, rfl, hd, -⟩ | ⟨-, henc⟩
    · -- A single small byte with a header is not good.
      have hone : c.toNat = 0x81 := by
        rw [List.length_singleton] at hsum
        omega
      simp [RLP.requireGood, hstart, hone, hd] at hgood
    · rw [henc, hheader]
  rw [if_neg h₁] at hlength
  by_cases h₂ : c.toNat < 0xc0
  · -- A long byte string.
    rw [if_pos h₂] at hlength
    rw [if_pos ⟨h₂, by omega⟩] at hsum
    obtain ⟨hheader, hlong⟩ := eq_of_long 0x80 (by omega) (by omega) hlength (by omega)
    refine Or.inl ⟨decide_eq_false (by rw [hlist]; omega), rest.drop (c.toNat - 0xb7), ?_⟩
    rcases encodeData_eq (rest.drop (c.toNat - 0xb7)) with ⟨d, hd, -, -⟩ | ⟨-, henc⟩
    · rw [hd, List.length_singleton] at hlong
      omega
    · rw [henc, ← hheader]
  rw [if_neg h₂] at hlength
  refine Or.inr ⟨decide_eq_true (by rw [hlist]; omega), ?_⟩
  rw [if_neg (by omega)] at hsum
  by_cases h₃ : c.toNat ≤ 0xf7
  · -- A short list.
    rw [if_pos h₃] at hlength
    rw [if_neg (by omega), List.length_cons] at hsum
    have hn := Except.ok.inj hlength
    refine ⟨rest, ?_⟩
    rw [header, if_pos (by omega), List.singleton_append,
      ← eq_ofNat (show c.toNat = 0xc0 + rest.length by omega)]
  · -- A long list.
    rw [if_neg h₃] at hlength
    rw [if_pos ⟨by omega, by omega⟩] at hsum
    exact ⟨_, (eq_of_long 0xc0 (by omega) (by omega) hlength (by omega)).1⟩

/-! ## The items of a list -/

/-- What `toList` does with an item. -/
def pushBack (i : Bytes) : Exec (List Bytes) Unit := modify (· ++ [i])

/-- An item is appended to the list. -/
@[simp] theorem pushBack_apply (i : Bytes) (ret : List Bytes) :
    pushBack i ret = .ok () (ret ++ [i]) := rfl

/-- The list that the loop has collected is returned. -/
theorem toList_of_ok {d : Bytes} {ret : List Bytes} (hlist : RLP.isList d = true)
    (h : RLP.forEach d pushBack [] = .ok () ret) : RLP.toList d = .ok ret := by
  unfold RLP.toList
  rw [if_neg (by rw [hlist]; decide)]
  have hloop : RLP.forEach d (fun i => modify (· ++ [i])) [] = .ok () ret := h
  rw [hloop]

/-- What the loop throws is thrown. -/
theorem toList_of_error {d : Bytes} {e : Exn} {ret : List Bytes} (hlist : RLP.isList d = true)
    (h : RLP.forEach d pushBack [] = .error e ret) : RLP.toList d = .error e := by
  unfold RLP.toList
  rw [if_neg (by rw [hlist]; decide)]
  have hloop : RLP.forEach d (fun i => modify (· ++ [i])) [] = .error e ret := h
  rw [hloop]

/-- Items that are collected are appended in their order. -/
theorem forM_pushBack (items ret : List Bytes) :
    items.forM pushBack ret = .ok () (ret ++ items) := by
  induction items generalizing ret with
  | nil => exact congrArg (EStateM.Result.ok ()) (List.append_nil ret).symm
  | cons e items ih =>
      change (pushBack e >>= fun _ => items.forM pushBack) ret = _
      rw [Exec.bind_apply, pushBack_apply]
      dsimp only
      rw [ih, List.append_assoc, List.singleton_append]

/-- The items of a list are listed. -/
theorem toList_eq {d : Bytes} {items : List Bytes} (hd : ReadsAs d items.flatten true)
    (h : ∀ e ∈ items, IsItem e) : RLP.toList d = .ok items := by
  refine toList_of_ok hd.isList_self ?_
  rw [forEach_eq pushBack hd h, forM_pushBack, List.nil_append]

/-- An item takes at least one byte. -/
theorem actualSize_pos {d : Bytes} {n : ℕ} (hne : d ≠ []) (h : RLP.actualSize d = .ok n) :
    0 < n := by
  unfold RLP.actualSize at h
  rw [if_neg hne] at h
  by_cases hsingle : RLP.isSingleByte d = true
  · rw [if_pos hsingle] at h
    have hone := Except.ok.inj h
    omega
  · rw [if_neg hsingle] at h
    obtain ⟨l, -, hsum⟩ := bind_eq_ok h
    have hn := Except.ok.inj hsum
    rw [RLP.payloadOffset, if_neg hsingle] at hn
    omega

/-- An item that can be cut off the front of a text lies in it. -/
theorem of_sizeAsEncoded {d : Bytes} {n : ℕ} (hne : d ≠ []) (h : RLP.sizeAsEncoded d = .ok n) :
    0 < n ∧ n ≤ d.length := by
  unfold RLP.sizeAsEncoded at h
  obtain ⟨_, hcheck, hsize⟩ := bind_eq_ok h
  refine ⟨actualSize_pos hne hsize, ?_⟩
  unfold RLP.check at hcheck
  rw [hsize] at hcheck
  change (if false = true ∧ n < d.length then Except.error Exn.oversizeRLP
    else if true = true ∧ d.length < n then .error .undersizeRLP else .ok ()) = _ at hcheck
  rw [if_neg (by simp)] at hcheck
  by_cases hlong : true = true ∧ d.length < n
  · rw [if_pos hlong] at hcheck
    cases hcheck
  · simp only [true_and] at hlong
    omega

/-- One round of the loop: an item is cut off the front and tested. -/
theorem forEachLoop_pushBack {rounds : ℕ} {ret ret' : List Bytes} {text : Bytes} {u : Unit}
    (hne : text ≠ []) (h : RLP.forEachLoop pushBack (rounds + 1) text ret = .ok u ret') :
    ∃ n, RLP.sizeAsEncoded text = .ok n ∧ RLP.check true true (cropped text 0 n) = .ok () ∧
      RLP.forEachLoop pushBack rounds (croppedFrom text n) (ret ++ [cropped text 0 n]) =
        .ok u ret' := by
  rw [RLP.forEachLoop, if_neg hne, Exec.bind_apply] at h
  cases hsize : RLP.sizeAsEncoded text with
  | error e =>
      rw [hsize] at h
      cases h
  | ok n =>
      rw [hsize, Exec.ofExcept_ok] at h
      dsimp only at h
      rw [Exec.bind_apply] at h
      cases hcheck : RLP.check true true (cropped text 0 n) with
      | error e =>
          rw [hcheck] at h
          cases h
      | ok _ =>
          rw [hcheck, Exec.ofExcept_ok] at h
          dsimp only at h
          rw [Exec.bind_apply, pushBack_apply] at h
          exact ⟨n, rfl, hcheck, h⟩

/-- What the loop lists are whole items, and together they are the text. -/
theorem of_forEachLoop {rounds : ℕ} {ret ret' : List Bytes} {text : Bytes} {u : Unit}
    (hrounds : text.length ≤ rounds)
    (h : RLP.forEachLoop pushBack rounds text ret = .ok u ret') :
    ∃ items, text = items.flatten ∧ ret' = ret ++ items ∧
      ∀ e ∈ items, e ≠ [] ∧ RLP.check true true e = .ok () := by
  induction rounds generalizing text ret with
  | zero =>
      obtain rfl := List.length_eq_zero_iff.mp (Nat.le_zero.mp hrounds)
      cases h
      exact ⟨[], rfl, (List.append_nil _).symm, fun e he => absurd he List.not_mem_nil⟩
  | succ rounds ih =>
      by_cases hne : text = []
      · rw [RLP.forEachLoop, if_pos hne] at h
        cases h
        exact ⟨[], hne, (List.append_nil _).symm, fun e he => absurd he List.not_mem_nil⟩
      · obtain ⟨n, hsize, hcheck, hloop⟩ := forEachLoop_pushBack hne h
        obtain ⟨hpos, hle⟩ := of_sizeAsEncoded hne hsize
        have hitem : cropped text 0 n = text.take n := by
          rw [cropped, if_pos (by omega), List.drop_zero]
        have hbehind : croppedFrom text n = text.drop n := by rw [croppedFrom, if_pos hle]
        rw [hitem] at hcheck hloop
        rw [hbehind] at hloop
        obtain ⟨items, hitems, hret, hall⟩ := ih (by rw [List.length_drop]; omega) hloop
        refine ⟨text.take n :: items, ?_, ?_, List.forall_mem_cons.mpr ⟨⟨?_, hcheck⟩, hall⟩⟩
        · rw [List.flatten_cons, ← hitems, List.take_append_drop]
        · rw [hret, List.append_assoc, List.singleton_append]
        · intro hnil
          have hlength := congrArg List.length hnil
          rw [List.length_take, List.length_nil] at hlength
          omega

/-- The items of a list that is read are whole items, and together they are its payload. -/
theorem of_toList {d p : Bytes} {items : List Bytes} (hd : ReadsAs d p true)
    (h : RLP.toList d = .ok items) :
    p = items.flatten ∧ ∀ e ∈ items, e ≠ [] ∧ RLP.check true true e = .ok () := by
  have hforEach : RLP.forEach d pushBack [] = RLP.forEachLoop pushBack p.length p [] := by
    rw [RLP.forEach, hd.isList_self, if_pos rfl, Exec.bind_apply, hd.payload_self,
      Exec.ofExcept_ok]
  cases hloop : RLP.forEachLoop pushBack p.length p [] with
  | error e ret =>
      rw [toList_of_error hd.isList_self (hforEach.trans hloop)] at h
      cases h
  | ok u ret =>
      rw [toList_of_ok hd.isList_self (hforEach.trans hloop)] at h
      obtain ⟨items', hp, hret, hall⟩ := of_forEachLoop (Nat.le_refl _) hloop
      obtain rfl : ret = items := Except.ok.inj h
      rw [List.nil_append] at hret
      subst hret
      exact ⟨hp, hall⟩

/-! ## Reading -/

/-- The text of a tree is one item. -/
theorem isItem_encodeTree {t : RlpTree} (h : (encodeTree t).length ≤ vectorMaxSize) :
    IsItem (encodeTree t) := by
  cases t with
  | data b =>
      rw [encodeTree] at h ⊢
      exact ⟨b, false, readsAs_encodeData ((length_le_encodeData b).trans h)⟩
  | list l =>
      rw [encodeTree] at h ⊢
      exact ⟨_, true, readsAs_encodeList ((flatten_length_le_encodeList _).trans h)⟩

/-- An item is no longer than all of them together. -/
theorem length_le_flatten_of_mem {e : Bytes} {items : List Bytes} (h : e ∈ items) :
    e.length ≤ items.flatten.length := (List.sublist_flatten_of_mem h).length_le

/-- The encodings of trees, one by one. -/
theorem encodeTrees_eq_map (l : List RlpTree) : encodeTrees l = l.map encodeTree := by
  induction l with
  | nil => rfl
  | cons t l ih => rw [encodeTrees, ih, List.map_cons]

/-- The encoding of a tree in a list is an item. -/
theorem isItem_of_mem {l : List RlpTree} {e : Bytes}
    (hbound : ∀ e ∈ encodeTrees l, e.length ≤ vectorMaxSize) (he : e ∈ encodeTrees l) :
    IsItem e := by
  have hle := hbound e he
  rw [encodeTrees_eq_map] at he
  obtain ⟨t, -, rfl⟩ := List.mem_map.mp he
  exact isItem_encodeTree hle

/-- A tree has a depth of one at least. -/
theorem depth_pos (t : RlpTree) : 0 < depth t := by
  cases t with
  | data b => exact Nat.one_pos
  | list l => exact Nat.succ_pos _

/-- A node that is read passes the tests, and is a list or a byte string. -/
theorem readTree_succ_eq_ok {rounds : ℕ} {d : Bytes} {t : RlpTree}
    (h : readTree (rounds + 1) d = .ok t) :
    RLP.check true true d = .ok () ∧
      ((RLP.isList d = true ∧ ∃ items l, RLP.toList d = .ok items ∧
          items.mapM (readTree rounds) = .ok l ∧ t = .list l) ∨
        (RLP.isList d = false ∧ RLP.isData d = true ∧ ∃ b, RLP.toString d = .ok b ∧
          t = .data b)) := by
  rw [readTree] at h
  obtain ⟨_, hcheck, h⟩ := bind_eq_ok h
  refine ⟨hcheck, ?_⟩
  by_cases hlist : RLP.isList d = true
  · rw [if_pos hlist] at h
    obtain ⟨items, hitems, h⟩ := bind_eq_ok h
    obtain ⟨l, hl, h⟩ := bind_eq_ok h
    exact Or.inl ⟨hlist, items, l, hitems, hl, (Except.ok.inj h).symm⟩
  · rw [if_neg hlist] at h
    by_cases hdata : RLP.isData d = true
    · rw [if_pos hdata] at h
      obtain ⟨b, hb, h⟩ := bind_eq_ok h
      exact Or.inr ⟨Bool.eq_false_iff.mpr hlist, hdata, b, hb, (Except.ok.inj h).symm⟩
    · rw [if_neg hdata] at h
      cases h

section Reading

variable {rounds : ℕ} (ih : ∀ {d : Bytes} {t : RlpTree}, d.length ≤ vectorMaxSize →
  (readTree rounds d = .ok t ↔ d = encodeTree t ∧ depth t ≤ rounds))

include ih

/-- The items of a list are read one after the other. -/
theorem mapM_readTree_iff {items : List Bytes} {l : List RlpTree}
    (hsize : ∀ e ∈ items, e.length ≤ vectorMaxSize) :
    items.mapM (readTree rounds) = .ok l ↔ items = encodeTrees l ∧ depths l ≤ rounds := by
  induction items generalizing l with
  | nil =>
      rw [List.mapM_nil]
      cases l with
      | nil => exact ⟨fun _ => ⟨rfl, Nat.zero_le _⟩, fun _ => rfl⟩
      | cons t l => exact ⟨fun h => (nomatch Except.ok.inj h), fun h => (nomatch h.1)⟩
  | cons e items ihItems =>
      have hfirst := hsize e List.mem_cons_self
      have hrest := fun x hx => hsize x (List.mem_cons_of_mem _ hx)
      rw [List.mapM_cons]
      constructor
      · intro h
        obtain ⟨t, ht, h⟩ := bind_eq_ok h
        obtain ⟨l', hl', h⟩ := bind_eq_ok h
        obtain rfl := Except.ok.inj h
        obtain ⟨rfl, hdepth⟩ := (ih hfirst).mp ht
        obtain ⟨rfl, hdepths⟩ := (ihItems hrest).mp hl'
        exact ⟨rfl, Nat.max_le.mpr ⟨hdepth, hdepths⟩⟩
      · rintro ⟨hitems, hdepths⟩
        cases l with
        | nil => cases hitems
        | cons t l =>
            obtain ⟨he, hl⟩ := List.cons.inj hitems
            obtain ⟨hdepth, hdepths⟩ := Nat.max_le.mp hdepths
            rw [(ih hfirst).mpr ⟨he, hdepth⟩, (ihItems hrest).mpr ⟨hl, hdepths⟩]
            rfl

/-- A node is read as the tree it is the text of. -/
theorem readTree_succ_iff {d : Bytes} {t : RlpTree} (hsize : d.length ≤ vectorMaxSize) :
    readTree (rounds + 1) d = .ok t ↔ d = encodeTree t ∧ depth t ≤ rounds + 1 := by
  constructor
  · intro h
    obtain ⟨hcheck, ⟨hlist, items, l, hitems, hl, rfl⟩ | ⟨hlist, hdata, b, hb, rfl⟩⟩ :=
      readTree_succ_eq_ok h
    · have hne : d ≠ [] := by
        rintro rfl
        cases hlist
      rcases encoded_of_check hne hcheck with ⟨hfalse, -⟩ | ⟨-, p, hp⟩
      · rw [hlist] at hfalse
        cases hfalse
      have hpayload : p.length ≤ vectorMaxSize := by
        have hlength := congrArg List.length hp
        rw [List.length_append] at hlength
        omega
      have hreads : ReadsAs d p true := by
        rw [hp]
        exact readsAs_header (l := true) (fun h => nomatch h) hpayload
      obtain ⟨hflat, -⟩ := of_toList hreads hitems
      have hbound : ∀ e ∈ items, e.length ≤ vectorMaxSize := fun e he =>
        (length_le_flatten_of_mem he).trans (hflat ▸ hpayload)
      obtain ⟨hitems', hdepths⟩ := (mapM_readTree_iff ih hbound).mp hl
      refine ⟨?_, Nat.succ_le_succ hdepths⟩
      rw [hp, encodeTree, encodeList, ← hitems', ← hflat]
    · have hne : d ≠ [] := by
        rintro rfl
        cases hdata
      rcases encoded_of_check hne hcheck with ⟨-, b', rfl⟩ | ⟨htrue, -⟩
      · have hreads := readsAs_encodeData ((length_le_encodeData b').trans hsize)
        rw [hreads.toString] at hb
        obtain rfl := Except.ok.inj hb
        exact ⟨rfl, Nat.succ_le_succ (Nat.zero_le _)⟩
      · rw [htrue] at hlist
        cases hlist
  · rintro ⟨rfl, hdepth⟩
    rw [readTree]
    cases t with
    | data b =>
        rw [encodeTree] at hsize ⊢
        have hreads := readsAs_encodeData ((length_le_encodeData b).trans hsize)
        rw [hreads.check, hreads.isList_self, hreads.isData_self, hreads.toString]
        rfl
    | list l =>
        rw [encodeTree] at hsize ⊢
        have hflat := (flatten_length_le_encodeList (encodeTrees l)).trans hsize
        have hbound : ∀ e ∈ encodeTrees l, e.length ≤ vectorMaxSize := fun e he =>
          (length_le_flatten_of_mem he).trans hflat
        have hitem : ∀ e ∈ encodeTrees l, IsItem e := fun e he => isItem_of_mem hbound he
        have hreads := readsAs_encodeList hflat
        have hmap := (mapM_readTree_iff ih hbound).mpr ⟨rfl, Nat.le_of_succ_le_succ hdepth⟩
        rw [hreads.check, hreads.isList_self, toList_eq hreads hitem]
        exact congrArg (fun r => r.bind fun l => .ok (RlpTree.list l)) hmap

end Reading

/-- **The reader reads the text of each tree, and no other text**, by induction on how deep it
may be nested. -/
theorem readTree_eq_ok_iff {rounds : ℕ} {d : Bytes} {t : RlpTree}
    (hsize : d.length ≤ vectorMaxSize) :
    readTree rounds d = .ok t ↔ d = encodeTree t ∧ depth t ≤ rounds := by
  induction rounds generalizing d t with
  | zero =>
      have hpos := depth_pos t
      exact ⟨fun h => (nomatch h), fun h => by omega⟩
  | succ rounds ih => exact readTree_succ_iff ih hsize

/-! ## Writing -/

mutual

/-- What is written of a tree, when the stream does not throw. -/
theorem put_of_writeTree : ∀ {t : RlpTree} {s s' : RLPStream}, writeTree t s = .ok s' →
    put (encodeTree t) s = .ok s'
  | .data b, s, s', h => by
      rw [writeTree] at h
      rw [encodeTree]
      exact append_eq_put h
  | .list l, s, s', h => by
      rw [writeTree] at h
      obtain ⟨s₁, hopen, hitems⟩ := bind_eq_ok h
      have hlength : (encodeTrees l).length = l.length := by
        rw [encodeTrees_eq_map, List.length_map]
      rw [encodeTree]
      exact putAll_appendList _ (by rw [hlength]; exact hopen) (putAll_of_writeTrees hitems)

/-- What is written of the items of a list. -/
theorem putAll_of_writeTrees : ∀ {l : List RlpTree} {s s' : RLPStream},
    writeTrees l s = .ok s' → putAll (encodeTrees l) s = .ok s'
  | [], s, s', h => by
      rw [writeTrees] at h
      exact h
  | t :: l, s, s', h => by
      rw [writeTrees] at h
      obtain ⟨s₁, hfirst, hrest⟩ := bind_eq_ok h
      rw [encodeTrees, putAll_cons, put_of_writeTree hfirst]
      exact putAll_of_writeTrees hrest

end

mutual

/-- The stream does not throw at a tree whose text fits into a vector. -/
theorem writeTree_eq_put : ∀ (t : RlpTree) (s : RLPStream),
    (encodeTree t).length ≤ vectorMaxSize → writeTree t s = put (encodeTree t) s
  | .data b, s, h => by
      rw [encodeTree] at h ⊢
      rw [writeTree, append_eq ((length_le_encodeData b).trans h)]
  | .list l, s, h => by
      rw [encodeTree] at h ⊢
      have hflat := (flatten_length_le_encodeList (encodeTrees l)).trans h
      have hlength : l.length = (encodeTrees l).length := by
        rw [encodeTrees_eq_map, List.length_map]
      rw [writeTree, ← appendList_bind_putAll _ s hflat, hlength]
      exact congrArg (fun f => s.appendList (encodeTrees l).length >>= f)
        (funext fun s' => writeTrees_eq_putAll l s' fun e he =>
          (length_le_flatten_of_mem he).trans hflat)

/-- Nor at the items of a list. -/
theorem writeTrees_eq_putAll : ∀ (l : List RlpTree) (s : RLPStream),
    (∀ e ∈ encodeTrees l, e.length ≤ vectorMaxSize) → writeTrees l s = putAll (encodeTrees l) s
  | [], s, _ => by rw [writeTrees, encodeTrees, putAll_nil]
  | t :: l, s, h => by
      rw [encodeTrees] at h ⊢
      obtain ⟨hfirst, hrest⟩ := List.forall_mem_cons.mp h
      rw [writeTrees, putAll_cons, writeTree_eq_put t s hfirst]
      exact congrArg (fun f => (put (encodeTree t) s).bind f)
        (funext fun s' => writeTrees_eq_putAll l s' hrest)

end

/-- **What a stream holds to which a tree has been written.** -/
theorem writeTree_out_eq_ok_iff {t : RlpTree} {d : Bytes} :
    (do (← writeTree t {}).out) = .ok d ↔ d = encodeTree t ∧ d.length ≤ vectorMaxSize := by
  constructor
  · intro h
    obtain ⟨s, hs, hout⟩ := bind_eq_ok h
    exact out_of_put (put_of_writeTree hs) hout
  · rintro ⟨rfl, hsize⟩
    rw [writeTree_eq_put t {} hsize, put_empty]
    change RLPStream.out ⟨encodeTree t, []⟩ = _
    rw [RLPStream.out, if_neg (by simp), if_neg (not_lt.mpr hsize)]

end TronWallet.Analysis
