import TronWallet.Analysis.RlpWriter

/-!
# What the RLP reader reads

`ReadsAs e p l` says that the bytes `e`, whatever follows them, are one item with payload
`p`, a list when `l` holds: it is all the reader looks at.  Encodings of byte strings and
of lists are such items.  From it come the conversions of a node and the two ways into a
list: the loop over its items (`forEach_eq`) and the subscript operator with its cache
(`item_eq`), whose invariant is `NodeOf`.
-/

set_option autoImplicit false

namespace TronWallet.Analysis

open TronWallet.Model

/-- The bytes `e` are, whatever follows, one item with the payload `p`. -/
structure ReadsAs (e p : Bytes) (l : Bool) : Prop where
  ne_nil : e ≠ []
  requireGood : ∀ rest, RLP.requireGood (e ++ rest) = .ok ()
  length : ∀ rest, RLP.length (e ++ rest) = .ok p.length
  payload : ∃ n, (∀ rest, RLP.payloadOffset (e ++ rest) = n) ∧ e.drop n = p ∧ n ≤ e.length
  isList : ∀ rest, RLP.isList (e ++ rest) = l

/-! ## Headers -/

/-- The length the reader finds after the first byte of a long header. -/
theorem longLength_bigEndian {n : ℕ} (hlong : 56 ≤ n) (hn : n ≤ vectorMaxSize) (c : UInt8)
    (rest : Bytes) :
    RLP.longLength (bytesRequired n) (c :: (bigEndian (bytesRequired n) n ++ rest)) = .ok n := by
  have hhead := bigEndian_head_ne_zero (n := n) (by omega)
  have hbr : bytesRequired n ≤ 8 := bytesRequired_le_iff.mpr (by
    have : vectorMaxSize < 256 ^ 8 := by decide
    omega)
  have hpos : 0 < (bigEndian (bytesRequired n) n).length := by
    rw [bigEndian_length, bytesRequired_of_ne_zero (by omega)]
    omega
  have hmax : vectorMaxSize < sizeMax - 0x100 := by decide
  have hcount : c_rlpDataImmLenCount = 56 := rfl
  have hget : (c :: (bigEndian (bytesRequired n) n ++ rest)).getD 1 0 ≠ 0 := by
    rw [List.getD_cons_succ]
    rw [List.getD_eq_getElem?_getD] at hhead ⊢
    rwa [List.getElem?_append_left hpos]
  have htake : ((c :: (bigEndian (bytesRequired n) n ++ rest)).drop 1).take (bytesRequired n) =
      bigEndian (bytesRequired n) n := by
    rw [List.drop_one, List.tail_cons, List.take_left' (bigEndian_length _ _)]
  have hlen : ¬(c :: (bigEndian (bytesRequired n) n ++ rest)).length ≤ bytesRequired n := by
    rw [List.length_cons, List.length_append, bigEndian_length]
    omega
  unfold RLP.longLength
  rw [if_neg hlen, if_neg hget, if_neg (by omega)]
  simp only [htake, fromBigEndian_bytesRequired]
  rw [if_neg (by omega), if_neg (by omega)]

/-- The first byte of a header, as a number. -/
theorem toNat_header_byte {n : ℕ} (h : n < 256) : (UInt8.ofNat n).toNat = n := by
  rw [UInt8.toNat_ofNat', Nat.mod_eq_of_lt h]

/-- A number that is not zero takes a byte. -/
theorem bytesRequired_pos {n : ℕ} (h : n ≠ 0) : 0 < bytesRequired n := by
  rw [bytesRequired_of_ne_zero h]
  omega

/-- The first byte of the shortest header of a byte string, or of a list. -/
def headerBase (l : Bool) : ℕ := if l then 0xc0 else 0x80

/-- A payload with a short header is one item. -/
theorem readsAs_short_header {l : Bool} {b : Bytes}
    (hb : l = false → ∀ d, b = [d] → 0x80 ≤ d.toNat) (hlen : b.length < 56) :
    ReadsAs (header (headerBase l) b.length ++ b) b l := by
  have hstart : c_rlpDataImmLenStart = 0x80 := rfl
  have hlist : c_rlpListStart = 0xc0 := rfl
  have hind : c_rlpDataIndLenZero = 0xb7 := rfl
  have hlind : c_rlpListIndLenZero = 0xf7 := rfl
  have hle : headerBase l ≤ 0xc0 := by cases l <;> decide
  have hge : 0x80 ≤ headerBase l := by cases l <;> decide
  have hbyte := toNat_header_byte (n := headerBase l + b.length) (by omega)
  have hcons : ∀ rest, (header (headerBase l) b.length ++ b) ++ rest =
      UInt8.ofNat (headerBase l + b.length) :: (b ++ rest) := by
    intro rest
    rw [header, if_pos hlen]
    rfl
  have hself := hcons []
  rw [List.append_nil, List.append_nil] at hself
  have hgood : ∀ rest, RLP.requireGood ((header (headerBase l) b.length ++ b) ++ rest) =
      .ok () := by
    intro rest
    rw [hcons]
    simp only [RLP.requireGood, hbyte, hstart]
    by_cases hone : headerBase l + b.length = 0x81
    · -- Only a byte string of one byte has this header.
      have hl : l = false := by
        cases l with
        | false => rfl
        | true => exact absurd hone (by simp [headerBase]; omega)
      subst hl
      obtain ⟨d, rfl⟩ := List.length_eq_one_iff.mp (show b.length = 1 by
        simp only [headerBase, Bool.false_eq_true, if_false] at hone
        omega)
      have hd := hb rfl d rfl
      rw [if_neg (by omega)]
      simp only [List.cons_append, List.nil_append]
      rw [if_neg (by omega)]
    · rw [if_pos (by omega)]
  refine ⟨?_, hgood, ?_, ⟨1, ?_, ?_, ?_⟩, ?_⟩
  · rw [hself]
    exact List.cons_ne_nil _ _
  · intro rest
    have hg := hgood rest
    rw [hcons] at hg ⊢
    simp only [RLP.length, hg, hbyte, hstart, hind, hlist, hlind, bind, Except.bind]
    rw [if_neg (by omega)]
    cases l with
    | false =>
        simp only [headerBase, Bool.false_eq_true, if_false]
        rw [if_pos (by omega), Nat.add_sub_cancel_left]
    | true =>
        simp only [headerBase, if_true]
        rw [if_neg (by omega), if_neg (by omega), if_pos (by omega), Nat.add_sub_cancel_left]
  · intro rest
    rw [hcons]
    simp only [RLP.payloadOffset, RLP.isSingleByte, RLP.lengthSize, hbyte, hstart, hind, hlist,
      hlind]
    rw [if_neg (by simp; omega)]
    cases l with
    | false =>
        simp only [headerBase, Bool.false_eq_true, if_false]
        rw [if_neg (by omega), if_neg (by omega)]
    | true =>
        simp only [headerBase, if_true]
        rw [if_neg (by omega), if_neg (by omega)]
  · rw [hself, List.drop_one, List.tail_cons]
  · rw [hself]
    simp
  · intro rest
    rw [hcons]
    simp only [RLP.isList, hbyte, hlist]
    cases l with
    | false =>
        simp only [headerBase, Bool.false_eq_true, if_false, decide_eq_false_iff_not]
        omega
    | true => simp [headerBase]

/-- A payload with a long header is one item. -/
theorem readsAs_long_header {l : Bool} {b : Bytes} (hlen : 56 ≤ b.length)
    (hsize : b.length ≤ vectorMaxSize) :
    ReadsAs (header (headerBase l) b.length ++ b) b l := by
  have hstart : c_rlpDataImmLenStart = 0x80 := rfl
  have hlist : c_rlpListStart = 0xc0 := rfl
  have hind : c_rlpDataIndLenZero = 0xb7 := rfl
  have hlind : c_rlpListIndLenZero = 0xf7 := rfl
  have hbr := bytesRequired_le_eight hsize
  have hpos := bytesRequired_pos (n := b.length) (by omega)
  have hle : headerBase l ≤ 0xc0 := by cases l <;> decide
  have hge : 0x80 ≤ headerBase l := by cases l <;> decide
  have hbyte := toNat_header_byte (n := headerBase l + 55 + bytesRequired b.length) (by omega)
  have hcons : ∀ rest, (header (headerBase l) b.length ++ b) ++ rest =
      UInt8.ofNat (headerBase l + 55 + bytesRequired b.length) ::
        (bigEndian (bytesRequired b.length) b.length ++ (b ++ rest)) := by
    intro rest
    rw [header, if_neg (by omega), List.cons_append, List.cons_append, List.append_assoc]
  have hself := hcons []
  rw [List.append_nil, List.append_nil] at hself
  have hgood : ∀ rest, RLP.requireGood ((header (headerBase l) b.length ++ b) ++ rest) =
      .ok () := by
    intro rest
    rw [hcons]
    simp only [RLP.requireGood, hbyte, hstart]
    rw [if_pos (by omega)]
  refine ⟨?_, hgood, ?_, ⟨1 + bytesRequired b.length, ?_, ?_, ?_⟩, ?_⟩
  · rw [hself]
    exact List.cons_ne_nil _ _
  · intro rest
    have hg := hgood rest
    rw [hcons] at hg ⊢
    simp only [RLP.length, hg, hbyte, hstart, hind, hlist, hlind, bind, Except.bind]
    rw [if_neg (by omega)]
    cases l with
    | false =>
        simp only [headerBase, Bool.false_eq_true, if_false]
        rw [if_neg (by omega), if_pos (by omega),
          show 0x80 + 55 + bytesRequired b.length - 0xb7 = bytesRequired b.length by omega]
        exact longLength_bigEndian hlen hsize _ _
    | true =>
        simp only [headerBase, if_true]
        rw [if_neg (by omega), if_neg (by omega), if_neg (by omega),
          show 0xc0 + 55 + bytesRequired b.length - 0xf7 = bytesRequired b.length by omega]
        exact longLength_bigEndian hlen hsize _ _
  · intro rest
    rw [hcons]
    simp only [RLP.payloadOffset, RLP.isSingleByte, RLP.lengthSize, hbyte, hstart, hind, hlist,
      hlind]
    rw [if_neg (by simp; omega)]
    cases l with
    | false =>
        simp only [headerBase, Bool.false_eq_true, if_false]
        rw [if_pos (by omega)]
        omega
    | true =>
        simp only [headerBase, if_true]
        rw [if_neg (by omega), if_pos (by omega)]
        omega
  · rw [hself, Nat.add_comm 1, List.drop_succ_cons, List.drop_left' (bigEndian_length _ _)]
  · rw [hself]
    simp only [List.length_cons, List.length_append, bigEndian_length]
    omega
  · intro rest
    rw [hcons]
    simp only [RLP.isList, hbyte, hlist]
    cases l with
    | false =>
        simp only [headerBase, Bool.false_eq_true, if_false, decide_eq_false_iff_not]
        omega
    | true =>
        simp only [headerBase, if_true, decide_eq_true_eq]
        omega

/-- A payload with a header of its length is one item. -/
theorem readsAs_header {l : Bool} {b : Bytes} (hb : l = false → ∀ d, b = [d] → 0x80 ≤ d.toNat)
    (hsize : b.length ≤ vectorMaxSize) : ReadsAs (header (headerBase l) b.length ++ b) b l := by
  by_cases hlen : b.length < 56
  · exact readsAs_short_header hb hlen
  · exact readsAs_long_header (by omega) hsize

/-- The encoding of a byte string is one item. -/
theorem readsAs_encodeData {b : Bytes} (hsize : b.length ≤ vectorMaxSize) :
    ReadsAs (encodeData b) b false := by
  rcases encodeData_eq b with ⟨d, rfl, hd, henc⟩ | ⟨hb, henc⟩
  · rw [henc]
    have hstart : c_rlpDataImmLenStart = 0x80 := rfl
    have hlist : c_rlpListStart = 0xc0 := rfl
    have hgood : ∀ rest, RLP.requireGood ([d] ++ rest) = .ok () := by
      intro rest
      simp only [List.cons_append, List.nil_append, RLP.requireGood, hstart]
      rw [if_pos (by omega)]
    refine ⟨List.cons_ne_nil _ _, hgood, ?_, ⟨0, ?_, rfl, Nat.zero_le _⟩, ?_⟩
    · intro rest
      have hg := hgood rest
      simp only [List.cons_append, List.nil_append] at hg ⊢
      simp only [RLP.length, hg, hstart, bind, Except.bind, if_pos hd]
      rfl
    · intro rest
      simp [RLP.payloadOffset, RLP.isSingleByte, hstart, hd]
    · intro rest
      simp only [List.cons_append, List.nil_append, RLP.isList, hlist]
      simp
      omega
  · rw [henc]
    exact readsAs_header (l := false) (fun _ => hb) hsize

/-- The encoding of a list is one item. -/
theorem readsAs_encodeList {items : List Bytes} (hsize : items.flatten.length ≤ vectorMaxSize) :
    ReadsAs (encodeList items) items.flatten true :=
  readsAs_header (l := true) (fun h => by cases h) hsize

/-! ## A node -/

namespace ReadsAs

variable {e p : Bytes} {l : Bool}

/-- An item is not empty. -/
theorem append_ne_nil (h : ReadsAs e p l) (rest : Bytes) : e ++ rest ≠ [] := by
  intro hnil
  exact h.ne_nil (List.append_eq_nil_iff.mp hnil).1

/-- The item takes its own bytes and no others. -/
theorem actualSize (h : ReadsAs e p l) (rest : Bytes) :
    RLP.actualSize (e ++ rest) = .ok e.length := by
  obtain ⟨n, hoffset, hdrop, hle⟩ := h.payload
  have hlen : n + p.length = e.length := by
    rw [← hdrop, List.length_drop]
    omega
  unfold RLP.actualSize
  rw [if_neg (h.append_ne_nil rest)]
  by_cases hsingle : RLP.isSingleByte (e ++ rest) = true
  · rw [if_pos hsingle]
    have hzero := hoffset rest
    rw [RLP.payloadOffset, if_pos hsingle] at hzero
    have hone := h.length rest
    obtain ⟨c, cs, hcs⟩ := List.exists_cons_of_ne_nil (h.append_ne_nil rest)
    have hgood := h.requireGood rest
    rw [hcs] at hone hsingle hgood
    simp only [RLP.isSingleByte, decide_eq_true_eq] at hsingle
    simp only [RLP.length, hgood, bind, Except.bind, if_pos hsingle] at hone
    have hp := Except.ok.inj hone
    congr 1
    omega
  · rw [if_neg hsingle, h.length rest, hoffset rest]
    simp only [bind, Except.bind, hlen]

/-- The size of an item in front of a text. -/
theorem sizeAsEncoded (h : ReadsAs e p l) (rest : Bytes) :
    RLP.sizeAsEncoded (e ++ rest) = .ok e.length := by
  unfold RLP.sizeAsEncoded RLP.check
  simp only [h.actualSize rest, bind, Except.bind]
  rw [if_neg (by simp), if_neg (by simp)]

/-- An item that is all of the data passes the tests of the constructor. -/
theorem check (h : ReadsAs e p l) (tooBig tooSmall : Bool) :
    RLP.check tooBig tooSmall e = .ok () := by
  have hsize := h.actualSize []
  rw [List.append_nil] at hsize
  unfold RLP.check
  simp only [hsize, bind, Except.bind]
  rw [if_neg (by simp), if_neg (by simp)]

/-- An item passes the checks of the constructor. -/
theorem ofBytes (h : ReadsAs e p l) : RLP.ofBytes e = .ok { m_data := e } := by
  unfold RLP.ofBytes
  rw [h.check]
  rfl

/-- The length of the payload of an item. -/
theorem length_self (h : ReadsAs e p l) : RLP.length e = .ok p.length := by
  have hlen := h.length []
  rwa [List.append_nil] at hlen

/-- An item is seen to be a list if it is one. -/
theorem isList_self (h : ReadsAs e p l) : RLP.isList e = l := by
  have hl := h.isList []
  rwa [List.append_nil] at hl

/-- An item is seen to be data if it is no list. -/
theorem isData_self (h : ReadsAs e p l) : RLP.isData e = !l := by
  have hl := h.isList_self
  obtain ⟨c, cs, rfl⟩ := List.exists_cons_of_ne_nil h.ne_nil
  rw [← hl]
  simp only [RLP.isData, RLP.isList]
  by_cases hc : c.toNat < c_rlpListStart
  · simp [hc]
  · simp [hc, Nat.le_of_not_lt hc]

/-- The payload of an item. -/
theorem payload_self (h : ReadsAs e p l) : RLP.payload e = .ok p := by
  obtain ⟨n, hoffset, hdrop, hle⟩ := h.payload
  have hn := hoffset []
  rw [List.append_nil] at hn
  have hlen : n + p.length = e.length := by
    rw [← hdrop, List.length_drop]
    omega
  unfold RLP.payload
  simp only [h.length_self, hn, bind, Except.bind]
  rw [if_neg (by omega), cropped, if_pos (by omega), hdrop, List.take_length]

/-- An item passes `requireGood`. -/
theorem requireGood_self (h : ReadsAs e p l) : RLP.requireGood e = .ok () := by
  have hgood := h.requireGood []
  rwa [List.append_nil] at hgood

/-- A byte string reads back as a string. -/
theorem toString (h : ReadsAs e p false) : RLP.toString e = .ok p := by
  unfold RLP.toString
  rw [h.isData_self, if_neg (by simp)]
  simp only [h.payload_self, h.length_self, bind, Except.bind]
  rw [cropped, if_pos (by omega), List.drop_zero, List.take_length]

/-- The bytes of a hash read back as the hash. -/
theorem toHash {N : ℕ} {x : FixedHash N} (h : ReadsAs e x.m_data false) :
    RLP.toHash N e = .ok x := by
  unfold RLP.toHash
  simp only [h.requireGood_self, h.payload_self, h.isData_self, bind, Except.bind]
  rw [if_neg (by simp [x.size_eq])]
  congr 1
  apply FixedHash.ext
  simp [FixedHash.ofBytesRight, x.size_eq]

end ReadsAs

/-- The version number reads back. -/
theorem toInt_one : RLP.toInt 4 [1] = .ok 1 := by decide

/-! ## The items of a list -/

/-- Some item, whatever its payload. -/
def IsItem (e : Bytes) : Prop := ∃ p l, ReadsAs e p l

/-- An item takes a byte. -/
theorem IsItem.length_pos {e : Bytes} (h : IsItem e) : 0 < e.length := by
  obtain ⟨p, l, h⟩ := h
  exact List.length_pos_of_ne_nil h.ne_nil

/-- The part up to the end of an item is the item. -/
theorem cropped_left (e rest : Bytes) : cropped (e ++ rest) 0 e.length = e := by
  rw [cropped, if_pos (by simp), List.drop_zero, List.take_left' rfl]

/-- The part behind an item is what follows it. -/
theorem croppedFrom_left (e rest : Bytes) : croppedFrom (e ++ rest) e.length = rest := by
  rw [croppedFrom, if_pos (by simp), List.drop_left' rfl]

/-- There are no more items than bytes. -/
theorem length_le_flatten {items : List Bytes} (h : ∀ e ∈ items, IsItem e) :
    items.length ≤ items.flatten.length := by
  induction items with
  | nil => exact Nat.le_refl _
  | cons e items ih =>
      have hpos := (h e List.mem_cons_self).length_pos
      have hrest := ih fun x hx => h x (List.mem_cons_of_mem _ hx)
      rw [List.length_cons, List.flatten_cons, List.length_append]
      omega

/-- The items of a list are counted. -/
theorem itemsLoop_eq {items : List Bytes} (h : ∀ e ∈ items, IsItem e) {rounds : ℕ}
    (hrounds : items.length ≤ rounds) : RLP.itemsLoop rounds items.flatten = .ok items.length := by
  induction items generalizing rounds with
  | nil => cases rounds <;> rfl
  | cons e items ih =>
      obtain ⟨rounds, rfl⟩ : ∃ k, rounds = k + 1 := ⟨rounds - 1, by simp at hrounds; omega⟩
      obtain ⟨p, l, he⟩ := h e List.mem_cons_self
      rw [List.flatten_cons, RLP.itemsLoop, if_neg (he.append_ne_nil _), he.sizeAsEncoded]
      simp only [bind, Except.bind, croppedFrom_left]
      rw [ih (fun x hx => h x (List.mem_cons_of_mem _ hx)) (by simp at hrounds; omega)]
      rfl

/-- A list has as many items as have been put together. -/
theorem itemCount_eq {d : Bytes} {items : List Bytes} (hd : ReadsAs d items.flatten true)
    (h : ∀ e ∈ items, IsItem e) : RLP.itemCount d = .ok items.length := by
  unfold RLP.itemCount
  rw [hd.isList_self, if_pos rfl, hd.payload_self]
  exact itemsLoop_eq h (length_le_flatten h)

/-- Items that stand one after the other can be told apart in one way only. -/
theorem items_eq_of_flatten_eq {items items' : List Bytes} (h : ∀ e ∈ items, IsItem e)
    (h' : ∀ e ∈ items', IsItem e) (heq : items.flatten = items'.flatten) : items = items' := by
  induction items generalizing items' with
  | nil =>
      cases items' with
      | nil => rfl
      | cons e' items' =>
          have hpos := (h' e' List.mem_cons_self).length_pos
          have hlen := congrArg List.length heq
          simp only [List.flatten_nil, List.length_nil, List.flatten_cons,
            List.length_append] at hlen
          omega
  | cons e items ih =>
      cases items' with
      | nil =>
          have hpos := (h e List.mem_cons_self).length_pos
          have hlen := congrArg List.length heq
          simp only [List.flatten_nil, List.length_nil, List.flatten_cons,
            List.length_append] at hlen
          omega
      | cons e' items' =>
          obtain ⟨p, l, he⟩ := h e List.mem_cons_self
          obtain ⟨p', l', he'⟩ := h' e' List.mem_cons_self
          rw [List.flatten_cons, List.flatten_cons] at heq
          -- The first item is as long as the reader says.
          have hsize := he.sizeAsEncoded items.flatten
          rw [heq, he'.sizeAsEncoded] at hsize
          obtain ⟨hfirst, hrest⟩ := List.append_inj heq (Except.ok.inj hsize).symm
          rw [hfirst, ih (fun x hx => h x (List.mem_cons_of_mem _ hx))
            (fun x hx => h' x (List.mem_cons_of_mem _ hx)) hrest]

/-- The loop over a list visits its items in order. -/
theorem forEachLoop_eq {σ : Type} (body : Bytes → Exec σ Unit) {items : List Bytes}
    (h : ∀ e ∈ items, IsItem e) {rounds : ℕ} (hrounds : items.length ≤ rounds) :
    RLP.forEachLoop body rounds items.flatten = items.forM body := by
  induction items generalizing rounds with
  | nil => cases rounds <;> rfl
  | cons e items ih =>
      obtain ⟨rounds, rfl⟩ : ∃ k, rounds = k + 1 := ⟨rounds - 1, by simp at hrounds; omega⟩
      obtain ⟨p, l, he⟩ := h e List.mem_cons_self
      have hrest : RLP.forEachLoop body rounds items.flatten = items.forM body :=
        ih (fun x hx => h x (List.mem_cons_of_mem _ hx)) (by simp at hrounds; omega)
      funext s
      rw [show (e :: items).forM body = (body e >>= fun _ => items.forM body) from rfl,
        List.flatten_cons, RLP.forEachLoop, if_neg (he.append_ne_nil _), he.sizeAsEncoded]
      simp only [Exec.bind_apply, Exec.ofExcept, cropped_left, croppedFrom_left, he.check, hrest]

/-- The range-based loop over a list runs its body on each item. -/
theorem forEach_eq {σ : Type} (body : Bytes → Exec σ Unit) {d : Bytes} {items : List Bytes}
    (hd : ReadsAs d items.flatten true) (h : ∀ e ∈ items, IsItem e) :
    RLP.forEach d body = items.forM body := by
  unfold RLP.forEach
  rw [hd.isList_self, if_pos rfl]
  funext s
  simp only [Exec.bind_apply, Exec.ofExcept, hd.payload_self]
  rw [forEachLoop_eq body h (length_le_flatten h)]

/-! ## The subscript operator -/

/-- A node that holds a list: the cache, once used, tells of an item of the list where it
is and where it ends. -/
structure NodeOf (items : List Bytes) (r : RLP) : Prop where
  payload : RLP.payload r.m_data = .ok items.flatten
  isItem : ∀ e ∈ items, IsItem e
  cache : ∀ j, r.m_lastIndex = some j → items[j]? = some r.m_lastItem ∧
    r.m_lastEnd = (items.take (j + 1)).flatten.length

/-- What is read of items put together is the node of these items. -/
theorem ReadsAs.nodeOf {d : Bytes} {items : List Bytes} {l : Bool}
    (hd : ReadsAs d items.flatten l) (h : ∀ e ∈ items, IsItem e) :
    NodeOf items { m_data := d } :=
  ⟨hd.payload_self, h, fun j hj => by cases hj⟩

/-- What the next item is, once a number of items has been passed. -/
theorem flatten_drop_take {items : List Bytes} {j : ℕ} {e : Bytes} (h : items[j]? = some e) :
    items.flatten.drop (items.take j).flatten.length = e ++ (items.drop (j + 1)).flatten := by
  obtain ⟨hj, rfl⟩ := List.getElem?_eq_some_iff.mp h
  have hsplit : items.flatten = (items.take j).flatten ++
      (items[j] ++ (items.drop (j + 1)).flatten) := by
    rw [← List.flatten_cons, ← List.drop_eq_getElem_cons hj, ← List.flatten_append,
      List.take_append_drop]
  rw [hsplit, List.drop_left' rfl]

namespace NodeOf

variable {items : List Bytes} {r : RLP}

/-- Moving on to an item that is there. -/
theorem stepItem (h : NodeOf items r) {j : ℕ} {e : Bytes} (hj : items[j]? = some e)
    (hend : r.m_lastEnd = (items.take j).flatten.length) :
    RLP.stepItem r j = .ok { r with m_lastIndex := some j, m_lastItem := e,
                                    m_lastEnd := (items.take (j + 1)).flatten.length } := by
  obtain ⟨p, l, he⟩ := h.isItem e (List.mem_of_getElem? hj)
  have hle : r.m_lastEnd ≤ items.flatten.length := by
    have hsplit : items.flatten.length =
        (items.take j).flatten.length + (items.drop j).flatten.length := by
      rw [← List.length_append, ← List.flatten_append, List.take_append_drop]
    omega
  have hrest : croppedFrom items.flatten r.m_lastEnd = e ++ (items.drop (j + 1)).flatten := by
    rw [croppedFrom, if_pos hle, hend, flatten_drop_take hj]
  have htake : (items.take (j + 1)).flatten.length = r.m_lastEnd + e.length := by
    rw [List.take_add_one, hj, hend]
    simp
  unfold RLP.stepItem
  simp only [h.payload, hrest, he.sizeAsEncoded, bind, Except.bind, cropped_left, htake]

/-- Moving on over items that are there. -/
theorem advance (h : NodeOf items r) {rounds index : ℕ} (hindex : r.m_lastIndex = some index)
    (hlt : index + rounds < items.length) :
    ∃ r', RLP.advance rounds index r = .ok r' ∧ NodeOf items r' ∧ r'.m_data = r.m_data ∧
      r'.m_lastIndex = some (index + rounds) := by
  induction rounds generalizing r index with
  | zero => exact ⟨r, rfl, h, rfl, hindex⟩
  | succ rounds ih =>
      obtain ⟨hitem, hend⟩ := h.cache index hindex
      have hne : r.m_lastItem ≠ [] := List.ne_nil_of_length_pos
        (h.isItem _ (List.mem_of_getElem? hitem)).length_pos
      obtain ⟨e, he⟩ : ∃ e, items[index + 1]? = some e :=
        ⟨_, List.getElem?_eq_getElem (by omega)⟩
      let next : RLP := { r with m_lastIndex := some (index + 1), m_lastItem := e,
                                 m_lastEnd := (items.take (index + 1 + 1)).flatten.length }
      have hnext : NodeOf items next := ⟨h.payload, h.isItem, fun j hj => by
        cases hj
        exact ⟨he, rfl⟩⟩
      obtain ⟨r', hr', hnode, hdata, hlast⟩ := ih hnext rfl (by omega)
      refine ⟨r', ?_, hnode, hdata, ?_⟩
      · rw [RLP.advance, if_neg hne, h.stepItem he hend]
        exact hr'
      · rw [hlast]
        congr 1
        omega

/-- Going back to the first item. -/
theorem first (h : NodeOf items r) {e : Bytes} (he : items[0]? = some e) :
    RLP.sizeAsEncoded items.flatten = .ok e.length ∧
      cropped items.flatten 0 e.length = e ∧
      NodeOf items { r with m_lastEnd := e.length, m_lastItem := e, m_lastIndex := some 0 } := by
  obtain ⟨p, l, hreads⟩ := h.isItem e (List.mem_of_getElem? he)
  have hflat : items.flatten = e ++ (items.drop 1).flatten := by
    have := flatten_drop_take he
    simpa using this
  refine ⟨?_, ?_, h.payload, h.isItem, fun j hj => ?_⟩
  · rw [hflat, hreads.sizeAsEncoded]
  · rw [hflat, cropped_left]
  · cases hj
    refine ⟨he, ?_⟩
    rw [List.take_add_one, he]
    simp

/-- The subscript operator gives the item at an index that is there, whatever was read
before. -/
theorem item_eq (h : NodeOf items r) {i : ℕ} {e : Bytes} (he : items[i]? = some e) :
    ∃ r', r.item i = .ok (e, r') ∧ NodeOf items r' := by
  have hi : i < items.length := (List.getElem?_eq_some_iff.mp he).1
  obtain ⟨e₀, he₀⟩ : ∃ e₀, items[0]? = some e₀ := ⟨_, List.getElem?_eq_getElem (by omega)⟩
  obtain ⟨hsize, hcrop, hfirst⟩ := h.first he₀
  -- From a node whose cache is at or before the index, the loop leads to the item.
  have hrun : ∀ (r₁ : RLP) (last : ℕ), NodeOf items r₁ → r₁.m_lastIndex = some last → last ≤ i →
      ∃ r', (do
        let r ← RLP.advance (i - last) last r₁
        RLP.check false true r.m_lastItem
        .ok (r.m_lastItem, r) : Except Exn (Bytes × RLP)) = .ok (e, r') ∧ NodeOf items r' := by
    intro r₁ last hnode hlast hle
    obtain ⟨r', hr', hnode', -, hindex⟩ := hnode.advance hlast (show last + (i - last) < _ by omega)
    rw [show last + (i - last) = i by omega] at hindex
    obtain ⟨hitem, -⟩ := hnode'.cache i hindex
    obtain rfl : e = r'.m_lastItem := Option.some.inj (he.symm.trans hitem)
    obtain ⟨p, l, hreads⟩ := h.isItem _ (List.mem_of_getElem? he)
    refine ⟨r', ?_, hnode'⟩
    simp only [hr', hreads.check, bind, Except.bind]
  unfold RLP.item
  cases hlast : r.m_lastIndex with
  | none =>
      simp only [h.payload, hsize, hcrop, bind, Except.bind]
      exact hrun _ 0 hfirst rfl (Nat.zero_le _)
  | some last =>
      by_cases hlt : i < last
      · simp only [if_pos hlt, h.payload, hsize, hcrop, bind, Except.bind]
        exact hrun _ 0 hfirst rfl (Nat.zero_le _)
      · simp only [if_neg hlt, bind, Except.bind]
        exact hrun r last h hlast (by omega)

end NodeOf

end TronWallet.Analysis
