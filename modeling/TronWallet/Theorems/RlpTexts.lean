import Mathlib.Data.List.GetD
import TronWallet.Analysis.RlpTrees

/-!
# RLP texts

The keys file is an RLP text.  The reader is as strict as it can be: a whole text is read if
and only if the stream writes it, so that no two texts hold the same tree
(`readTree_iff_writeTree`).

A node finds its items by two ways.  The subscript operator keeps the item it found last and
goes on from there; over any sequence of indices, forwards, backwards and beyond the end, it
gives what the loop over the items gives (`subscripts_eq_toList`).
-/

set_option autoImplicit false

namespace TronWallet.Theorems

open TronWallet.Model TronWallet.Analysis

/-! ## Texts and trees -/

mutual

/-- Lists are nested no deeper than the text is long. -/
theorem depth_le_length : ∀ t : RlpTree, depth t ≤ (encodeTree t).length
  | .data b => by
      rw [depth, encodeTree]
      rcases encodeData_eq b with ⟨d, -, -, henc⟩ | ⟨-, henc⟩
      · rw [henc]
        exact Nat.le_refl _
      · rw [henc, List.length_append, header]
        split_ifs
        · rw [List.length_singleton]
          omega
        · rw [List.length_cons]
          omega
  | .list l => by
      have hitems := depths_le_length l
      rw [depth, encodeTree, encodeList, List.length_append, header]
      split_ifs
      · rw [List.length_singleton]
        omega
      · rw [List.length_cons]
        omega

/-- Nor those of the items. -/
theorem depths_le_length : ∀ l : List RlpTree, depths l ≤ (encodeTrees l).flatten.length
  | [] => Nat.zero_le _
  | t :: l => by
      have hfirst := depth_le_length t
      have hrest := depths_le_length l
      rw [depths, encodeTrees, List.flatten_cons, List.length_append]
      omega

end

/-- **The reader reads a text as a tree if and only if the stream writes the tree as that
text.** -/
theorem readTree_iff_writeTree {d : Bytes} {t : RlpTree} (hsize : d.length ≤ vectorMaxSize) :
    readTree d.length d = .ok t ↔ (do (← writeTree t {}).out) = .ok d := by
  rw [readTree_eq_ok_iff hsize, writeTree_out_eq_ok_iff]
  constructor
  · rintro ⟨hd, -⟩
    exact ⟨hd, hsize⟩
  · rintro ⟨hd, -⟩
    refine ⟨hd, ?_⟩
    rw [hd]
    exact depth_le_length t

/-- A list of a byte and of no bytes, there and back. -/
theorem readTree_iff_writeTree_pair :
    readTree 3 [0xc2, 1, 0x80] = .ok (.list [.data [1], .data []]) ↔
      (do (← writeTree (.list [.data [1], .data []]) {}).out) = .ok [0xc2, 1, 0x80] :=
  readTree_iff_writeTree (d := [0xc2, 1, 0x80]) (by decide)

/-! ## The subscript operator -/

/-- Items asked for one after the other, of one node. -/
def subscripts : List ℕ → RLP → Except Exn (List Bytes)
  | [], _ => .ok []
  | i :: is, r => do
    let (e, r) ← r.item i
    let es ← subscripts is r
    .ok (e :: es)

/-- The cache tells of an index which item is there, none beyond the end, and where it
ends. -/
structure CacheOf (items : List Bytes) (r : RLP) : Prop where
  payload : RLP.payload r.m_data = .ok items.flatten
  isItem : ∀ e ∈ items, IsItem e
  cache : ∀ j, r.m_lastIndex = some j → r.m_lastItem = items.getD j [] ∧
    r.m_lastEnd = (items.take (j + 1)).flatten.length

namespace CacheOf

variable {items : List Bytes} {r : RLP}

/-- There is no item beyond the end, and the items before it are not empty. -/
theorem getD_eq_nil_iff (h : CacheOf items r) {j : ℕ} :
    items.getD j [] = [] ↔ items.length ≤ j := by
  constructor
  · intro hnil
    by_contra hlt
    rw [List.getD_eq_getElem _ _ (not_le.mp hlt)] at hnil
    have hpos := (h.isItem _ (List.getElem_mem (not_le.mp hlt))).length_pos
    rw [hnil] at hpos
    exact Nat.lt_irrefl 0 hpos
  · intro hle
    rw [List.getD_eq_default _ _ hle]

/-- Behind the items before an index come those from it on. -/
theorem croppedFrom_take (items : List Bytes) (j : ℕ) :
    croppedFrom items.flatten (items.take j).flatten.length = (items.drop j).flatten := by
  have hsplit : items.flatten = (items.take j).flatten ++ (items.drop j).flatten := by
    rw [← List.flatten_append, List.take_append_drop]
  rw [hsplit, croppedFrom_left]

/-- The item at the front of those from an index on. -/
theorem sizeAsEncoded_drop (h : CacheOf items r) (j : ℕ) :
    RLP.sizeAsEncoded (items.drop j).flatten = .ok (items.getD j []).length ∧
      cropped (items.drop j).flatten 0 (items.getD j []).length = items.getD j [] ∧
      (items.take (j + 1)).flatten.length =
        (items.take j).flatten.length + (items.getD j []).length := by
  by_cases hj : j < items.length
  · obtain ⟨p, l, hreads⟩ := h.isItem _ (List.getElem_mem hj)
    have hdrop : (items.drop j).flatten = items[j] ++ (items.drop (j + 1)).flatten := by
      rw [List.drop_eq_getElem_cons hj, List.flatten_cons]
    rw [List.getD_eq_getElem _ _ hj, hdrop, hreads.sizeAsEncoded, cropped_left]
    refine ⟨rfl, rfl, ?_⟩
    rw [List.take_add_one, List.getElem?_eq_getElem hj, List.flatten_append, List.length_append]
    simp
  · have hle := not_lt.mp hj
    rw [List.getD_eq_default _ _ hle, List.drop_eq_nil_of_le hle, List.take_of_length_le hle,
      List.take_of_length_le (hle.trans (Nat.le_succ j))]
    exact ⟨rfl, rfl, rfl⟩

/-- One round of the loop goes on to the next index. -/
theorem stepItem (h : CacheOf items r) {j : ℕ} (hj : r.m_lastIndex = some j) :
    ∃ r', RLP.stepItem r (j + 1) = .ok r' ∧ CacheOf items r' ∧ r'.m_lastIndex = some (j + 1) := by
  obtain ⟨hsize, hcrop, htake⟩ := h.sizeAsEncoded_drop (j + 1)
  have hend := (h.cache j hj).2
  refine ⟨{ r with m_lastIndex := some (j + 1), m_lastItem := items.getD (j + 1) [],
                   m_lastEnd := (items.take (j + 1 + 1)).flatten.length }, ?_,
    ⟨h.payload, h.isItem, fun k hk => ?_⟩, rfl⟩
  · unfold RLP.stepItem
    simp only [h.payload, hend, croppedFrom_take, hsize, hcrop, htake, bind, Except.bind]
  · obtain rfl := Option.some.inj hk
    exact ⟨rfl, rfl⟩

/-- The loop leads to the item at its last index, or stops at the end. -/
theorem advance (h : CacheOf items r) (rounds : ℕ) {index : ℕ}
    (hindex : r.m_lastIndex = some index) :
    ∃ r', RLP.advance rounds index r = .ok r' ∧ CacheOf items r' ∧
      r'.m_lastItem = items.getD (index + rounds) [] := by
  induction rounds generalizing r index with
  | zero => exact ⟨r, rfl, h, (h.cache index hindex).1⟩
  | succ rounds ih =>
      rw [RLP.advance]
      by_cases hnil : r.m_lastItem = []
      · rw [if_pos hnil]
        refine ⟨r, rfl, h, ?_⟩
        rw [(h.cache index hindex).1, h.getD_eq_nil_iff] at hnil
        rw [(h.cache index hindex).1, h.getD_eq_nil_iff.mpr hnil,
          h.getD_eq_nil_iff.mpr (hnil.trans (Nat.le_add_right _ _))]
      · rw [if_neg hnil]
        obtain ⟨r₁, hstep, hcache, hlast⟩ := h.stepItem hindex
        obtain ⟨r', hr', hcache', hitem⟩ := ih hcache hlast
        refine ⟨r', ?_, hcache', ?_⟩
        · rw [hstep]
          exact hr'
        · rw [hitem, Nat.add_assoc, Nat.add_comm 1 rounds]

/-- Going back to the first item. -/
theorem first (h : CacheOf items r) :
    CacheOf items { r with m_lastEnd := (items.getD 0 []).length
                           m_lastItem := items.getD 0 []
                           m_lastIndex := some 0 } := by
  refine ⟨h.payload, h.isItem, fun j hj => ?_⟩
  obtain rfl := Option.some.inj hj
  refine ⟨rfl, ?_⟩
  rw [(h.sizeAsEncoded_drop 0).2.2, List.take_zero, List.flatten_nil, List.length_nil, Nat.zero_add]

/-- Every item that is remembered has passed the checks. -/
theorem check_getD (h : CacheOf items r) (i : ℕ) :
    RLP.check false true (items.getD i []) = .ok () := by
  by_cases hi : i < items.length
  · rw [List.getD_eq_getElem _ _ hi]
    obtain ⟨p, l, hreads⟩ := h.isItem _ (List.getElem_mem hi)
    exact hreads.check _ _
  · rw [List.getD_eq_default _ _ (not_lt.mp hi)]
    rfl

/-- The subscript operator gives the item at an index, the empty one beyond the end, whatever
was asked for before. -/
theorem item_eq (h : CacheOf items r) (i : ℕ) :
    ∃ r', r.item i = .ok (items.getD i [], r') ∧ CacheOf items r' := by
  obtain ⟨hsize, hcrop, -⟩ := h.sizeAsEncoded_drop 0
  rw [List.drop_zero] at hsize hcrop
  -- From a node whose cache is at or before the index, the loop leads to the item.
  have hrun : ∀ (r₁ : RLP) (last : ℕ), CacheOf items r₁ → r₁.m_lastIndex = some last → last ≤ i →
      ∃ r', (do
        let r ← RLP.advance (i - last) last r₁
        RLP.check false true r.m_lastItem
        .ok (r.m_lastItem, r) : Except Exn (Bytes × RLP)) = .ok (items.getD i [], r') ∧
          CacheOf items r' := by
    intro r₁ last hcache hlast hle
    obtain ⟨r', hr', hcache', hitem⟩ := hcache.advance (i - last) hlast
    rw [show last + (i - last) = i by omega] at hitem
    refine ⟨r', ?_, hcache'⟩
    simp only [hr', hitem, h.check_getD i, bind, Except.bind]
  unfold RLP.item
  cases hlast : r.m_lastIndex with
  | none =>
      simp only [h.payload, hsize, hcrop, bind, Except.bind]
      exact hrun _ 0 h.first rfl (Nat.zero_le _)
  | some last =>
      by_cases hlt : i < last
      · simp only [if_pos hlt, h.payload, hsize, hcrop, bind, Except.bind]
        exact hrun _ 0 h.first rfl (Nat.zero_le _)
      · simp only [if_neg hlt, bind, Except.bind]
        exact hrun r last h hlast (by omega)

/-- Any sequence of indices gives the items at them. -/
theorem subscripts_eq (h : CacheOf items r) (is : List ℕ) :
    subscripts is r = .ok (is.map fun i => items.getD i []) := by
  induction is generalizing r with
  | nil => rfl
  | cons i is ih =>
      obtain ⟨r', hitem, hcache⟩ := h.item_eq i
      rw [subscripts, hitem]
      change (do
        let es ← subscripts is r'
        .ok (items.getD i [] :: es) : Except Exn (List Bytes)) = _
      rw [ih hcache]
      rfl

end CacheOf

/-- What passes the tests of the constructor is one item. -/
theorem isItem_of_check {e : Bytes} (hne : e ≠ []) (h : RLP.check true true e = .ok ())
    (hsize : e.length ≤ vectorMaxSize) : IsItem e := by
  rcases encoded_of_check hne h with ⟨-, b, rfl⟩ | ⟨-, p, hp⟩
  · exact ⟨b, false, readsAs_encodeData ((length_le_encodeData b).trans hsize)⟩
  · refine ⟨p, true, ?_⟩
    have hlength := congrArg List.length hp
    rw [List.length_append] at hlength
    rw [hp]
    exact readsAs_header (l := true) (fun h => nomatch h) (by omega)

/-- **Both ways into a list lead to the same items**: in whatever order a node is asked for its
items, each answer is what the loop over the items lists at that index, and nothing beyond
its end. -/
theorem subscripts_eq_toList {d : Bytes} {r : RLP} {items : List Bytes}
    (hsize : d.length ≤ vectorMaxSize) (hr : RLP.ofBytes d = .ok r)
    (hitems : RLP.toList d = .ok items) (is : List ℕ) :
    subscripts is r = .ok (is.map fun i => items.getD i []) := by
  obtain ⟨_, hcheck, hnode⟩ := bind_eq_ok hr
  obtain rfl := Except.ok.inj hnode
  have hlist : RLP.isList d = true := by
    by_contra hno
    unfold RLP.toList at hitems
    rw [if_pos (Bool.eq_false_iff.mpr hno)] at hitems
    cases hitems
  have hne : d ≠ [] := by
    rintro rfl
    cases hlist
  rcases encoded_of_check hne hcheck with ⟨hfalse, -⟩ | ⟨-, p, hp⟩
  · rw [hlist] at hfalse
    cases hfalse
  have hlength := congrArg List.length hp
  rw [List.length_append] at hlength
  have hreads : ReadsAs d p true := by
    rw [hp]
    exact readsAs_header (l := true) (fun h => nomatch h) (by omega)
  obtain ⟨hflat, hall⟩ := of_toList hreads hitems
  have hcache : CacheOf items { m_data := d } := by
    refine ⟨by rw [← hflat]; exact hreads.payload_self, fun e he => ?_, fun j hj => (nomatch hj)⟩
    have hle := length_le_flatten_of_mem he
    rw [← hflat] at hle
    exact isItem_of_check (hall e he).1 (hall e he).2 (by omega)
  exact hcache.subscripts_eq is

/-- Subscripts that go back and forth through a list of three. -/
theorem subscripts_eq_toList_back_and_forth :
    subscripts [1, 0, 5, 1] { m_data := [0xc2, 1, 2] } = .ok [[2], [1], [], [2]] := by
  have hnode : RLP.ofBytes [0xc2, 1, 2] = .ok { m_data := [0xc2, 1, 2] } := rfl
  have hitems : RLP.toList [0xc2, 1, 2] = .ok [[1], [2]] := by decide +kernel
  exact subscripts_eq_toList (d := [0xc2, 1, 2]) (by decide) hnode hitems [1, 0, 5, 1]

end TronWallet.Theorems
