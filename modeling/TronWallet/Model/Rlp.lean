import TronWallet.Model.Exec

/-!
# Recursive length prefix: the writer and the reader

`RLPStream` and `RLP` of libdevcore.  The writer holds its output and a stack of open
lists, each with the number of items it still waits for and the place where it began; when
the last item of a list is noted, its header is inserted at that place, and the list
counts as one item of the list around it.  The reader keeps the cache its subscript
operator uses: the index, the end and the bytes of the item read last.

Sizes are natural numbers; the tests against `size_t` and against the largest vector stand
where the source or the standard library makes them.
-/

set_option autoImplicit false

namespace TronWallet.Model

def c_rlpMaxLengthBytes : ℕ := 8
def c_rlpDataImmLenStart : ℕ := 0x80
def c_rlpListStart : ℕ := 0xc0
def c_rlpDataImmLenCount : ℕ := c_rlpListStart - c_rlpDataImmLenStart - c_rlpMaxLengthBytes
def c_rlpDataIndLenZero : ℕ := c_rlpDataImmLenStart + c_rlpDataImmLenCount - 1
def c_rlpListImmLenCount : ℕ := 256 - c_rlpListStart - c_rlpMaxLengthBytes
def c_rlpListIndLenZero : ℕ := c_rlpListStart + c_rlpListImmLenCount - 1

/-- The largest value of `size_t`. -/
def sizeMax : ℕ := 2 ^ 64 - 1

/-- `std::vector<byte>::max_size()`. -/
def vectorMaxSize : ℕ := 2 ^ 63 - 1

/-! ## Integers as bytes -/

/-- `bytesRequired` with the rounds left to it. -/
def bytesRequiredLoop : ℕ → ℕ → ℕ
  | 0, _ => 0
  | rounds + 1, n => if n = 0 then 0 else bytesRequiredLoop rounds (n / 256) + 1

/-- Bytes required to encode an integer, zero for zero.
SOURCE: libdevcore/CommonData.h:211-219 -/
def bytesRequired (n : ℕ) : ℕ := bytesRequiredLoop n n

/-- The last `br` bytes of an integer, most significant first (`pushInt`).
SOURCE: libdevcore/RLP.h:461-468 -/
def bigEndian : ℕ → ℕ → Bytes
  | 0, _ => []
  | br + 1, n => bigEndian br (n / 256) ++ [UInt8.ofNat n]

/-- SOURCE: libdevcore/CommonData.h:137-144 -/
def fromBigEndian (b : Bytes) : ℕ := b.foldl (fun r x => r * 256 + x.toNat) 0

/-! ## The writer -/

/-- The writer: its output and the open lists, the innermost first, each with the number
of items still to come and the place of its first byte. -/
structure RLPStream where
  m_out : Bytes := []
  m_listStack : List (ℕ × ℕ) := []

namespace RLPStream

/-- Counting an appended item: lists that are complete get their header, and then count
as one item of the list around them.
SOURCE: libdevcore/RLP.cpp:237-274 -/
def noteAppendedLoop : ℕ → Bytes → List (ℕ × ℕ) → Except Exn RLPStream
  | _, out, [] => .ok ⟨out, []⟩
  | itemCount, out, (left, p) :: rest =>
    if left < itemCount then .error .rlpException
    else if left - itemCount ≠ 0 then .ok ⟨out, (left - itemCount, p) :: rest⟩
    else
      let s := out.length - p
      let brs := bytesRequired s
      if s < c_rlpListImmLenCount then
        noteAppendedLoop 1 (out.take p ++ UInt8.ofNat (c_rlpListStart + s) :: out.drop p) rest
      else if c_rlpListIndLenZero + brs ≤ 0xff then
        noteAppendedLoop 1 (out.take p ++
          (UInt8.ofNat (c_rlpListIndLenZero + brs) :: bigEndian brs s) ++ out.drop p) rest
      else .error .rlpException

def noteAppended (itemCount : ℕ) (s : RLPStream) : Except Exn RLPStream :=
  if itemCount = 0 then .ok s else noteAppendedLoop itemCount s.m_out s.m_listStack

/-- SOURCE: libdevcore/RLP.cpp:230-235 -/
def appendRaw (b : Bytes) (itemCount : ℕ) (s : RLPStream) : Except Exn RLPStream :=
  noteAppended itemCount { s with m_out := s.m_out ++ b }

/-- SOURCE: libdevcore/RLP.cpp:344-351 -/
def pushCount (count base : ℕ) (s : RLPStream) : Except Exn RLPStream :=
  let br := bytesRequired count
  if br + base > 0xff then .error .rlpException
  else .ok { s with m_out := s.m_out ++ UInt8.ofNat (br + base) :: bigEndian br count }

/-- Appending an empty list is appending its one byte.
SOURCE: libdevcore/RLP.cpp:286-294 -/
def appendListBytes (rlp : Bytes) (s : RLPStream) : Except Exn RLPStream :=
  if rlp.length < c_rlpListImmLenCount then
    appendRaw rlp 1 { s with m_out := s.m_out ++ [UInt8.ofNat (rlp.length + c_rlpListStart)] }
  else do
    let s ← pushCount rlp.length c_rlpListIndLenZero s
    appendRaw rlp 1 s

/-- Opening a list of a given number of items.
SOURCE: libdevcore/RLP.cpp:276-284 -/
def appendList (items : ℕ) (s : RLPStream) : Except Exn RLPStream :=
  if items ≠ 0 then .ok { s with m_listStack := (items, s.m_out.length) :: s.m_listStack }
  else appendListBytes [] s

/-- Appending a byte string, `_compact` false.
SOURCE: libdevcore/RLP.cpp:296-315 -/
def append (b : Bytes) (s : RLPStream) : Except Exn RLPStream :=
  match b with
  | [d] =>
    if d.toNat < c_rlpDataImmLenStart then noteAppended 1 { s with m_out := s.m_out ++ [d] }
    else do
      let s ← appendRaw [d] 0
        { s with m_out := s.m_out ++ [UInt8.ofNat (1 + c_rlpDataImmLenStart)] }
      noteAppended 1 s
  | b =>
    if b.length < c_rlpDataImmLenCount then do
      let s ← appendRaw b 0
        { s with m_out := s.m_out ++ [UInt8.ofNat (b.length + c_rlpDataImmLenStart)] }
      noteAppended 1 s
    else do
      let s ← pushCount b.length c_rlpDataIndLenZero s
      let s ← appendRaw b 0 s
      noteAppended 1 s

/-- Appending an integer.
SOURCE: libdevcore/RLP.cpp:317-342 -/
def appendInt (i : ℕ) (s : RLPStream) : Except Exn RLPStream :=
  if i = 0 then
    noteAppended 1 { s with m_out := s.m_out ++ [UInt8.ofNat c_rlpDataImmLenStart] }
  else if i < c_rlpDataImmLenStart then
    noteAppended 1 { s with m_out := s.m_out ++ [UInt8.ofNat i] }
  else
    let br := bytesRequired i
    if br < c_rlpDataImmLenCount then
      noteAppended 1 { s with
        m_out := s.m_out ++ UInt8.ofNat (br + c_rlpDataImmLenStart) :: bigEndian br i }
    else
      let brbr := bytesRequired br
      if c_rlpDataIndLenZero + brbr > 0xff then .error .rlpException
      else noteAppended 1 { s with
        m_out := s.m_out ++ UInt8.ofNat (c_rlpDataIndLenZero + brbr) ::
          (bigEndian brbr br ++ bigEndian br i) }

/-- The byte stream, once no list is open. A stream longer than the largest vector could
not have been held.
SOURCE: libdevcore/RLP.h:444 -/
def out (s : RLPStream) : Except Exn Bytes :=
  if s.m_listStack ≠ [] then .error .rlpException
  else if vectorMaxSize < s.m_out.length then .error .lengthError
  else .ok s.m_out

end RLPStream

/-! ## The reader -/

namespace RLP

/-- Throws on a single byte written in two bytes.
SOURCE: libdevcore/RLP.cpp:119-130 -/
def requireGood : Bytes → Except Exn Unit
  | [] => .error .badRLP
  | n :: rest =>
    if n.toNat ≠ c_rlpDataImmLenStart + 1 then .ok ()
    else match rest with
      | [] => .error .badRLP
      | m :: _ => if m.toNat < c_rlpDataImmLenStart then .error .badRLP else .ok ()

/-- The length read from `lengthSize` bytes after the first one.
SOURCE: libdevcore/RLP.cpp:170-188, 192-214 -/
def longLength (lengthSize : ℕ) (d : Bytes) : Except Exn ℕ :=
  if d.length ≤ lengthSize then .error .badRLP
  else if d.getD 1 0 = 0 then .error .badRLP
  else if 8 < lengthSize then .error .undersizeRLP
  else
    let ret := fromBigEndian ((d.drop 1).take lengthSize)
    if ret < c_rlpDataImmLenCount then .error .badRLP
    else if sizeMax - 0x100 ≤ ret then .error .undersizeRLP
    else .ok ret

/-- The size in bytes of the payload, as given by the item.
SOURCE: libdevcore/RLP.cpp:159-215 -/
def length : Bytes → Except Exn ℕ
  | [] => .ok 0
  | d@(n :: _) => do
    requireGood d
    if n.toNat < c_rlpDataImmLenStart then .ok 1
    else if n.toNat ≤ c_rlpDataIndLenZero then .ok (n.toNat - c_rlpDataImmLenStart)
    else if n.toNat < c_rlpListStart then longLength (n.toNat - c_rlpDataIndLenZero) d
    else if n.toNat ≤ c_rlpListIndLenZero then .ok (n.toNat - c_rlpListStart)
    else longLength (n.toNat - c_rlpListIndLenZero) d

def isData : Bytes → Bool
  | [] => false
  | n :: _ => n.toNat < c_rlpListStart

def isList : Bytes → Bool
  | [] => false
  | n :: _ => c_rlpListStart ≤ n.toNat

def isSingleByte : Bytes → Bool
  | [] => false
  | n :: _ => n.toNat < c_rlpDataImmLenStart

/-- SOURCE: libdevcore/RLP.h:345 -/
def lengthSize : Bytes → ℕ
  | [] => 0
  | n :: _ =>
    if n.toNat < c_rlpListStart ∧ c_rlpDataIndLenZero < n.toNat then n.toNat - c_rlpDataIndLenZero
    else if c_rlpListStart ≤ n.toNat ∧ c_rlpListIndLenZero < n.toNat then
      n.toNat - c_rlpListIndLenZero
    else 0

/-- SOURCE: libdevcore/RLP.h:351 -/
def payloadOffset (d : Bytes) : ℕ := if isSingleByte d then 0 else 1 + lengthSize d

/-- SOURCE: libdevcore/RLP.h:328 -/
def payload (d : Bytes) : Except Exn Bytes := do
  let l ← length d
  if d.length < l then .error .badRLP
  else .ok (cropped d (payloadOffset d) l)

/-- The theoretical size of this item as encoded in the data.
SOURCE: libdevcore/RLP.cpp:108-117 -/
def actualSize (d : Bytes) : Except Exn ℕ :=
  if d = [] then .ok 0
  else if isSingleByte d then .ok 1
  else do
    let l ← length d
    .ok (payloadOffset d + l)

/-- The tests of the constructor, with `ThrowOnFail`.
SOURCE: libdevcore/RLP.cpp:29-46 -/
def check (failIfTooBig failIfTooSmall : Bool) (d : Bytes) : Except Exn Unit := do
  let size ← actualSize d
  if failIfTooBig = true ∧ size < d.length then .error .oversizeRLP
  else if failIfTooSmall = true ∧ d.length < size then .error .undersizeRLP
  else .ok ()

/-- SOURCE: libdevcore/RLP.h:357 -/
def sizeAsEncoded (d : Bytes) : Except Exn ℕ := do
  check false true d
  actualSize d

/-- SOURCE: libdevcore/RLP.cpp:132-157 -/
def isInt : Bytes → Except Exn Bool
  | [] => .ok false
  | d@(n :: _) => do
    requireGood d
    if n.toNat < c_rlpDataImmLenStart then .ok (n.toNat ≠ 0)
    else if n.toNat = c_rlpDataImmLenStart then .ok true
    else if n.toNat ≤ c_rlpDataIndLenZero then
      if d.length ≤ 1 then .error .badRLP else .ok (d.getD 1 0 ≠ 0)
    else if n.toNat < c_rlpListStart then
      if d.length ≤ 1 + n.toNat - c_rlpDataIndLenZero then .error .badRLP
      else .ok (d.getD (1 + n.toNat - c_rlpDataIndLenZero) 0 ≠ 0)
    else .ok false

/-- Conversion to an integer of `maxSize` bytes, `Strict`.
SOURCE: libdevcore/RLP.h:274-295 -/
def toInt (maxSize : ℕ) (d : Bytes) : Except Exn ℕ := do
  requireGood d
  let int ← isInt d
  if int = false ∨ isList d ∨ d = [] then .error .badCast
  else
    let p ← payload d
    if maxSize < p.length then .error .badCast else .ok (fromBigEndian p)

/-- Conversion to a hash, `Strict`: a shorter string is padded on the left.
SOURCE: libdevcore/RLP.h:305-322 -/
def toHash (N : ℕ) (d : Bytes) : Except Exn (FixedHash N) := do
  requireGood d
  let p ← payload d
  if isData d = false ∨ N < p.length then .error .badCast
  else .ok (FixedHash.ofBytesRight p)

/-- Conversion to a string, `LaissezFaire`: empty if this is no string.
SOURCE: libdevcore/RLP.h:198 -/
def toString (d : Bytes) : Except Exn Bytes :=
  if isData d = false then .ok []
  else do
    let p ← payload d
    let l ← length d
    .ok (cropped p 0 l)

/-- The number of items with the rounds left to the loop.
SOURCE: libdevcore/RLP.cpp:217-228 -/
def itemsLoop : ℕ → Bytes → Except Exn ℕ
  | 0, _ => .ok 0
  | rounds + 1, d =>
    if d = [] then .ok 0
    else do
      let n ← sizeAsEncoded d
      let i ← itemsLoop rounds (croppedFrom d n)
      .ok (i + 1)

/-- SOURCE: libdevcore/RLP.h:117 -/
def itemCount (d : Bytes) : Except Exn ℕ :=
  if isList d then do
    let p ← payload d
    itemsLoop p.length p
  else .ok 0

end RLP

/-- An item being read, with the cache of its subscript operator: the index, the end and
the bytes of the item read last. No index has been read at the start.
SOURCE: libdevcore/RLP.h:359-365 -/
structure RLP where
  m_data : Bytes
  m_lastIndex : Option ℕ := none
  m_lastEnd : ℕ := 0
  m_lastItem : Bytes := []

namespace RLP

/-- A node of the bytes given, `VeryStrict`. SOURCE: libdevcore/RLP.h:84 -/
def ofBytes (d : Bytes) : Except Exn RLP := do
  check true true d
  .ok { m_data := d }

/-- One round of the loop of the subscript operator. -/
def stepItem (r : RLP) (index : ℕ) : Except Exn RLP := do
  let p ← payload r.m_data
  let rest := croppedFrom p r.m_lastEnd
  let n ← sizeAsEncoded rest
  let item := cropped rest 0 n
  .ok { r with m_lastIndex := some index, m_lastItem := item,
               m_lastEnd := r.m_lastEnd + item.length }

/-- The loop of the subscript operator, `rounds` indices on from `index`. -/
def advance : ℕ → ℕ → RLP → Except Exn RLP
  | 0, _, r => .ok r
  | rounds + 1, index, r =>
    if r.m_lastItem = [] then .ok r
    else do
      let r ← stepItem r (index + 1)
      advance rounds (index + 1) r

/-- The subscript operator: the item, and the node with its cache moved on.
SOURCE: libdevcore/RLP.cpp:76-91 -/
def item (r : RLP) (i : ℕ) : Except Exn (Bytes × RLP) := do
  let (r, last) ← (match r.m_lastIndex with
    | some last =>
      if i < last then do
        let p ← payload r.m_data
        let n ← sizeAsEncoded p
        .ok ({ r with m_lastEnd := n, m_lastItem := cropped p 0 n, m_lastIndex := some 0 }, 0)
      else .ok (r, last)
    | none => do
      let p ← payload r.m_data
      let n ← sizeAsEncoded p
      .ok ({ r with m_lastEnd := n, m_lastItem := cropped p 0 n, m_lastIndex := some 0 }, 0)
    : Except Exn (RLP × ℕ))
  let r ← advance (i - last) last r
  check false true r.m_lastItem
  .ok (r.m_lastItem, r)

/-- The range-based loop over the items of a list, with the rounds left to it and the
payload not yet visited. The size of an item is read when the loop comes to it, and each
item is checked as a node of its own before the body sees it.
SOURCE: libdevcore/RLP.cpp:48-74 -/
def forEachLoop {σ : Type} (body : Bytes → Exec σ Unit) : ℕ → Bytes → Exec σ Unit
  | 0, _ => pure ()
  | rounds + 1, rest =>
    if rest = [] then pure ()
    else do
      let n ← Exec.ofExcept (sizeAsEncoded rest)
      Exec.ofExcept (check true true (cropped rest 0 n))
      body (cropped rest 0 n)
      forEachLoop body rounds (croppedFrom rest n)

/-- The range-based loop over an item: nothing happens when it is no list. -/
def forEach {σ : Type} (d : Bytes) (body : Bytes → Exec σ Unit) : Exec σ Unit :=
  if isList d then do
    let p ← Exec.ofExcept (payload d)
    forEachLoop body p.length p
  else pure ()

/-- The items of a list, `ThrowOnFail`. SOURCE: libdevcore/RLP.cpp:93-106 -/
def toList (d : Bytes) : Except Exn (List Bytes) :=
  if isList d = false then .error .badCast
  else
    match forEach d (fun i => modify (· ++ [i])) [] with
    | .ok _ ret => .ok ret
    | .error e _ => .error e

end RLP

end TronWallet.Model
